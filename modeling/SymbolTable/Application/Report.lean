import SymbolTable.Application.Basic

/-!
# Lookup reports

What is printed for a coordinate: its component with kind, qualified name and origin, then the
signature and each attribute on a line of its own.
-/

namespace SymbolTable

namespace Application

def originLabel (app : Application) : Origin → String
  | .program => "application"
  | .library index => "library " ++ ((app.libraries[index]?.map Library.coordinates).getD "")

def indentedLine (text : String) : String := "    " ++ text ++ "\n"

def describe (app : Application) (coordinate : String) (r : ComponentRef) : String :=
  let c := app.get r
  coordinate ++ " " ++ c.kind.label ++ " " ++ app.qualifiedName r ++ " (" ++
      app.originLabel r.origin ++ ")\n" ++
    String.join
      ((c.signature.toList.map fun signature => indentedLine ("signature " ++ signature)) ++
        c.attributes.map fun a => indentedLine a.display)

def describeMissing (coordinate : String) : String := coordinate ++ " not found\n"

/-- The report on a coordinate, found or not. -/
def report (app : Application) (coordinate : String) : String :=
  match app.find coordinate with
  | some r => app.describe coordinate r
  | none => describeMissing coordinate

end Application

end SymbolTable
