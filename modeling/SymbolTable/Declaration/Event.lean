import SymbolTable.Declaration.Basic

/-!
# Events of a walk

A walk over a compilation unit is the list of its events in source order. Each construct that may
contain others has an event when it starts and one when it ends; the end of a type follows directly
on the end of its body.
-/

namespace SymbolTable

inductive Event where
  | enterUnit (unit : CompilationUnit)
  | exitUnit (unit : CompilationUnit)
  | enterPackage (package : PackageDecl)
  | enterImport (decl : ImportDecl)
  | enterType (decl : TypeDecl)
  | exitTypeBody (decl : TypeDecl)
  | exitType (decl : TypeDecl)
  | enterConstant (decl : ConstantDecl)
  | exitConstant (decl : ConstantDecl)
  | enterConstructor (decl : CallableDecl)
  | exitConstructor (decl : CallableDecl)
  | enterMethod (decl : CallableDecl)
  | exitMethod (decl : CallableDecl)
  | enterParameter (parameter : ParameterDecl)
  | enterField (field : FieldDecl)

mutual
def TypeDecl.events : TypeDecl → List Event
  | .mk header members =>
    .enterType (.mk header members) ::
      (Member.eventsOfList members ++
        [.exitTypeBody (.mk header members), .exitType (.mk header members)])

def TypeDecl.eventsOfList : List TypeDecl → List Event
  | [] => []
  | d :: rest => d.events ++ TypeDecl.eventsOfList rest

def Member.events : Member → List Event
  | .type d => d.events
  | .constructor d => .enterConstructor d :: (d.inner ++ [.exitConstructor d])
  | .method d => .enterMethod d :: (d.inner ++ [.exitMethod d])
  | .field f => [.enterField f]
  | .enumConstant d => d.events

def Member.eventsOfList : List Member → List Event
  | [] => []
  | m :: rest => m.events ++ Member.eventsOfList rest

/-- The events between the start and the end of a callable. -/
def CallableDecl.inner : CallableDecl → List Event
  | .mk header localTypes =>
    header.parameters.map .enterParameter ++ TypeDecl.eventsOfList localTypes

def ConstantDecl.events : ConstantDecl → List Event
  | .mk header none => [.enterConstant (.mk header none), .exitConstant (.mk header none)]
  | .mk header (some body) =>
    .enterConstant (.mk header (some body)) ::
      (Member.eventsOfList body ++ [.exitConstant (.mk header (some body))])
end

def CompilationUnit.events (u : CompilationUnit) : List Event :=
  .enterUnit u ::
    (u.package.toList.map .enterPackage ++ u.imports.map .enterImport ++
      TypeDecl.eventsOfList u.types ++ [.exitUnit u])

namespace Event

/-- One line per event, which names the construct. -/
def describe : Event → String
  | .enterUnit u => "unit " ++ u.fileName
  | .exitUnit u => "/unit " ++ u.sourceName
  | .enterPackage p => "package " ++ ".".intercalate p.segments
  | .enterImport i => "import " ++ i.path
  | .enterType d =>
    "type " ++ d.header.name ++ " ctor=" ++ (if d.hasConstructor then "true" else "false")
  | .exitTypeBody d => "body " ++ d.header.name
  | .exitType d => "/type " ++ d.header.name
  | .enterConstant c => "constant " ++ c.header.name
  | .exitConstant c => "/constant " ++ c.header.name
  | .enterConstructor c => "constructor " ++ c.header.name ++ c.header.signature
  | .exitConstructor c => "/constructor " ++ c.header.name
  | .enterMethod c => "method " ++ c.header.name ++ c.header.signature
  | .exitMethod c => "/method " ++ c.header.name
  | .enterParameter p => "parameter " ++ p.name
  | .enterField f => "field " ++ ",".intercalate f.names

end Event

end SymbolTable
