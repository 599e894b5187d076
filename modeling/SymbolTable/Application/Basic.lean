import SymbolTable.Library.Basic
import SymbolTable.Naming
import SymbolTable.Tree.Coordinate
import SymbolTable.Tree.Copy

/-!
# Applications

An application is the symbol table of one analysis: the tree of the analysed program and the
libraries it may refer to. Lookup tries the program first and then each library in order.
-/

namespace SymbolTable

/-- The tree that a reference points into. -/
inductive Origin where
  | program
  | library (index : Nat)
  deriving DecidableEq, Repr, Inhabited

structure ComponentRef where
  origin : Origin
  id : NodeId
  deriving DecidableEq, Repr, Inhabited

namespace ComponentRef

def program (id : NodeId) : ComponentRef := ⟨.program, id⟩

end ComponentRef

structure Application where
  naming : Naming
  components : Tree := .empty
  libraries : List Library := []
  revisionId : Option String := none
  deriving DecidableEq, Repr, Inhabited

namespace Application

/-- Appends a library unless one with its coordinates is registered; tells whether it did. -/
def addLibrary (app : Application) (l : Library) : Application × Bool :=
  if app.libraries.any fun known => known.coordinates = l.coordinates then (app, false)
  else ({ app with libraries := app.libraries ++ [l] }, true)

def tree (app : Application) : Origin → Tree
  | .program => app.components
  | .library index => (app.libraries[index]?.map (·.components)).getD .empty

def get (app : Application) (r : ComponentRef) : Component := (app.tree r.origin).node r.id

def parent (app : Application) (r : ComponentRef) : Option ComponentRef :=
  ((app.tree r.origin).parent r.id).map fun id => ⟨r.origin, id⟩

def children (app : Application) (r : ComponentRef) : List ComponentRef :=
  ((app.tree r.origin).children r.id).map fun id => ⟨r.origin, id⟩

def root : ComponentRef := .program Tree.root

def libraryRoot (index : Nat) : ComponentRef := ⟨.library index, Tree.root⟩

/-- Whether a reference points at a node that exists. -/
def Holds (app : Application) (r : ComponentRef) : Prop :=
  (match r.origin with
    | .program => True
    | .library index => index < app.libraries.length) ∧
  r.id < (app.tree r.origin).size

instance (app : Application) (r : ComponentRef) : Decidable (app.Holds r) := by
  unfold Holds; cases r.origin <;> infer_instance

/-- Merges the tree of a file, root to root. -/
def merge (app : Application) (file : Tree) : Application :=
  { app with components := app.components.merge file }

def mergeAt (app : Application) (target : NodeId) (source : Tree) (id : NodeId) : Application :=
  { app with components := app.components.mergeAt target source id }

/-! ## Lookup by coordinate -/

def findInProgram (app : Application) (coordinate : String) : Option NodeId :=
  app.components.locate coordinate app.naming.delimiter

def findInLibraries (app : Application) (coordinate : String) : Option ComponentRef :=
  app.libraries.zipIdx.findSome? fun (l, i) =>
    (l.components.locate coordinate app.naming.delimiter).map fun id => ⟨.library i, id⟩

def find (app : Application) (coordinate : String) : Option ComponentRef :=
  match app.findInProgram coordinate with
  | some id => some (.program id)
  | none => app.findInLibraries coordinate

def coordinate (app : Application) (r : ComponentRef) : String :=
  (app.tree r.origin).coordinate r.id app.naming.delimiter

def qualifiedName (app : Application) (r : ComponentRef) : String :=
  (app.tree r.origin).qualifiedName r.id app.naming.nestedSeparator

end Application

end SymbolTable
