import SymbolTable.Analysis.TypeText
import SymbolTable.Scope.Basic

/-!
# Resolution of type names

A simple name is searched outwards through the scopes of the file, up to and including its package,
and then among what the file sees. Inside a scope the file under construction comes before the
program's copy of that scope, which also holds members declared later in the file. A dotted name is
followed member by member, and failing that read as a fully qualified name.
-/

namespace SymbolTable

/-- The mark of anonymous classes. -/
def anonymousMark : Attribute := ⟨.localClass, "anonymous"⟩

/-- Whether `c` is a type declaration that can be named `name`. An anonymous class carries the name
of its supertype but cannot be named. -/
def Component.isNamedType (c : Component) (name : String) : Bool :=
  c.value = name && c.kind.isTypeDeclaration &&
    !c.hasAttribute anonymousMark.kind anonymousMark.value

def Component.isTypeParameter (c : Component) (name : String) : Bool :=
  c.kind = .typeParameter && c.value = name

/-- A resolved name: in the file under construction, or known to the application. -/
inductive Resolved where
  | inFile (id : NodeId)
  | known (r : ComponentRef)
  deriving DecidableEq, Repr

namespace Scope

/-- The program's component with the coordinate of a scope of the file. -/
def programScope (s : Scope) (app : Application) (id : NodeId) : Option ComponentRef :=
  (app.findInProgram (s.tree.coordinate id app.naming.delimiter)).map .program

/-- The first child of the program's copy of a scope that `accept` takes. -/
def programMember (s : Scope) (app : Application) (id : NodeId) (accept : Component → Bool) :
    Option Resolved :=
  match s.programScope app id with
  | none => none
  | some scope => ((app.children scope).find? fun r => accept (app.get r)).map .known

def fileMember (s : Scope) (id : NodeId) (accept : Component → Bool) : Option Resolved :=
  ((s.tree.children id).find? fun c => accept (s.tree.node c)).map .inFile

def resolveEnclosing (s : Scope) (app : Application) (name : String) :
    Nat → NodeId → Option Resolved
  | 0, _ => none
  | fuel + 1, id =>
    let node := s.tree.node id
    match node.kind with
    | .root => none
    | .package => s.fileMember id (·.isNamedType name)
    | _ =>
      let accept (c : Component) : Bool := c.isNamedType name || c.isTypeParameter name
      match s.fileMember id accept with
      | some found => some found
      | none =>
        match s.programMember app id accept with
        | some found => some found
        | none =>
          if node.isNamedType name then some (.inFile id)
          else
            match s.tree.parent id with
            | some p => s.resolveEnclosing app name fuel p
            | none => none

def resolveSimple (s : Scope) (app : Application) (place : NodeId) (name : String) :
    Option Resolved :=
  match s.resolveEnclosing app name s.tree.size place with
  | some found => some found
  | none => (s.findVisible app name (·.kind.isTypeDeclaration)).map .known

def memberType (s : Scope) (app : Application) (scope : Resolved) (name : String) :
    Option Resolved :=
  match scope with
  | .inFile id =>
    match s.fileMember id (·.isNamedType name) with
    | some found => some found
    | none => s.programMember app id (·.isNamedType name)
  | .known r => ((app.children r).find? fun c => (app.get c).isNamedType name).map .known

/-- The qualified name and the kind of a resolved component. -/
def describe (s : Scope) (app : Application) : Resolved → String × ComponentKind
  | .inFile id => (s.tree.qualifiedName id app.naming.nestedSeparator, (s.tree.node id).kind)
  | .known r => (app.qualifiedName r, (app.get r).kind)

/-- Follows a dotted name from its first segment. -/
def resolveChain (s : Scope) (app : Application) (place : NodeId) (first : String)
    (rest : List String) : Option Resolved :=
  (s.resolveSimple app place first).bind fun start =>
    rest.foldlM (fun scope segment => s.memberType app scope segment) start

/-- Reads a name as fully qualified. -/
def resolveQualified (app : Application) (name : String) : Option ComponentRef :=
  (app.find (app.naming.coordinateOf name)).filter fun r => (app.get r).kind.isTypeDeclaration

/-- Resolves a type as written in a declaration, seen from the node `place`, to its qualified name
and kind. -/
def resolveType (s : Scope) (app : Application) (place : NodeId) (text : String) :
    Option (String × ComponentKind) :=
  let name := TypeText.erase text
  match TypeText.segments name with
  | [] => none
  | first :: rest =>
    match s.resolveChain app place first rest with
    | some found => some (s.describe app found)
    | none =>
      if rest.isEmpty then none
      else (resolveQualified app name).map fun r => s.describe app (.known r)

end Scope

end SymbolTable
