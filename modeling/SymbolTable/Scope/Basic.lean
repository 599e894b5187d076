import SymbolTable.Application.Basic

/-!
# Scopes

The state of one walk over a file: the tree under construction with a cursor into it, the imports
seen, the components visible by name, and the containers whose children are visible by name.
-/

namespace SymbolTable

structure Scope where
  tree : Tree := .empty
  cursor : NodeId := Tree.root
  file : Option Attribute := none
  revisionId : Option String := none
  hasPackage : Bool := false
  imports : List Component := []
  visible : List ComponentRef := []
  containers : List ComponentRef := []
  deriving DecidableEq, Repr, Inhabited

/-- The cursor was sent to a node that hangs nowhere. -/
inductive CursorError where
  | detached
  deriving DecidableEq, Repr

def CursorError.message : CursorError → String
  | .detached => "cursor moved to a detached component"

namespace Scope

def moveTo (s : Scope) (id : NodeId) : Scope := { s with cursor := id }

/-- Moves the cursor to the root or to a node that has a parent. -/
def descend (s : Scope) (id : NodeId) : Except CursorError Scope :=
  if id = Tree.root ∨ (s.tree.parent id).isSome then .ok (s.moveTo id) else .error .detached

/-- Moves the cursor to its parent; at the root it stays. -/
def ascend (s : Scope) : Scope :=
  match s.tree.parent s.cursor with
  | some p => s.moveTo p
  | none => s

/-- Records an import unless its symbol is recorded; tells whether it did. -/
def addImport (s : Scope) (c : Component) : Scope × Bool :=
  if s.imports.any fun known => known.sameSymbol c then (s, false)
  else ({ s with imports := s.imports ++ [c] }, true)

/-- Makes `r` visible unless it is; tells whether it did. -/
def addVisible (s : Scope) (r : ComponentRef) : Scope × Bool :=
  if r ∈ s.visible then (s, false) else ({ s with visible := s.visible ++ [r] }, true)

/-- Makes the children of `r` visible. Repetitions are kept. -/
def addContainer (s : Scope) (r : ComponentRef) : Scope :=
  { s with containers := s.containers ++ [r] }

def clearVisible (s : Scope) : Scope := { s with visible := [], containers := [] }

/-- The first component of the given name that `accept` takes: visible components before children
of containers. -/
def findVisible (s : Scope) (app : Application) (name : String) (accept : Component → Bool) :
    Option ComponentRef :=
  let fits (r : ComponentRef) : Bool := (app.get r).value = name && accept (app.get r)
  match s.visible.find? fits with
  | some r => some r
  | none => s.containers.findSome? fun container => (app.children container).find? fits

/-- Starts a fresh tree and forgets the file; what is visible stays. -/
def reset (s : Scope) : Scope := { s with tree := .empty, cursor := Tree.root, file := none }

/-- Forgets everything but the revision. -/
def fullReset (s : Scope) : Scope := { revisionId := s.revisionId }

/-- Hands out the finished tree and resets. -/
def takeTree (s : Scope) : Tree × Scope := (s.tree, s.reset)

def display (s : Scope) : String :=
  "FILE: " ++ (s.file.map (·.value)).getD "-" ++ " | CURRENT: " ++ (s.tree.node s.cursor).display

/-- The packages that every file sees without an import. -/
def implicitPackages : List String := ["java.lang", "java.io"]

/-- Opens the containers of a new file: the implicit packages, searched in the libraries before the
program, then the roots of the program and of each library. -/
def seed (s : Scope) (app : Application) : Scope :=
  let packages := implicitPackages.filterMap fun name =>
    let coordinate := app.naming.coordinateOf name
    match app.findInLibraries coordinate with
    | some r => some r
    | none => (app.findInProgram coordinate).map .program
  { s with
    containers := s.containers ++ packages ++ [Application.root] ++
      (List.range app.libraries.length).map Application.libraryRoot }

end Scope

end SymbolTable
