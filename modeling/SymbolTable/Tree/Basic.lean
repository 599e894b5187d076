import SymbolTable.Component.Basic

/-!
# Component trees

A tree is an array of components; ids index it and never change. Node 0 is the root. Links are
stored on both ends, and `link` is the only operation that sets them. Reading a node outside the
array gives `Component.missing`, which has no links, so every walk over a tree is total.
-/

namespace SymbolTable

/-- What reading an id outside a tree gives. -/
def Component.missing : Component := { kind := .root, value := "" }

structure Tree where
  nodes : Array Component
  deriving DecidableEq, Repr

namespace Tree

def root : NodeId := 0

/-- The tree that holds its root alone. -/
def empty : Tree := ⟨#[{ kind := .root, value := "ROOT" }]⟩

instance : Inhabited Tree := ⟨empty⟩

def size (t : Tree) : Nat := t.nodes.size

def isEmpty (t : Tree) : Bool := t.size ≤ 1

def node (t : Tree) (id : NodeId) : Component := t.nodes[id]?.getD Component.missing

def parent (t : Tree) (id : NodeId) : Option NodeId := (t.node id).parent

def children (t : Tree) (id : NodeId) : List NodeId := (t.node id).children

def hasChildren (t : Tree) (id : NodeId) : Bool := !(t.children id).isEmpty

def modify (t : Tree) (id : NodeId) (f : Component → Component) : Tree := ⟨t.nodes.modify id f⟩

/-- Stores `c` without links; its id is the old size. -/
def create (t : Tree) (c : Component) : Tree := ⟨t.nodes.push c.detached⟩

/-- Sets both ends of the link between `parent` and `child`. -/
def link (t : Tree) (parent child : NodeId) : Tree :=
  (t.modify child fun c => { c with parent := some parent }).modify parent
    fun c => { c with children := c.children ++ [child] }

/-- Creates `c` below `parent`; its id is the old size. -/
def add (t : Tree) (parent : NodeId) (c : Component) : Tree := (t.create c).link parent t.size

inductive AttachError where
  | alreadyAttached (component : Component)
  deriving DecidableEq, Repr

def AttachError.message : AttachError → String
  | .alreadyAttached c => "component " ++ c.display ++ " is already attached"

/-- Links a detached node; the root and nodes with a parent are refused. -/
def attach (t : Tree) (parent child : NodeId) : Except AttachError Tree :=
  if child ≠ root ∧ t.parent child = none then .ok (t.link parent child)
  else .error (.alreadyAttached (t.node child))

/-- The first child of `parent` with the symbol of `probe`. -/
def findChild (t : Tree) (parent : NodeId) (probe : Component) : Option NodeId :=
  (t.children parent).find? fun id => (t.node id).sameSymbol probe

def childrenOfKind (t : Tree) (parent : NodeId) (kind : ComponentKind) : List NodeId :=
  (t.children parent).filter fun id => (t.node id).kind = kind

def childrenOfValue (t : Tree) (parent : NodeId) (value : String) : List NodeId :=
  (t.children parent).filter fun id => (t.node id).value = value

/-! ## Reading what the operations write -/

theorem node_modify (t : Tree) (id i : NodeId) (f : Component → Component) (h : id < t.size) :
    (t.modify id f).node i = if i = id then f (t.node i) else t.node i := by
  unfold modify node size at *
  by_cases hi : i = id
  · subst hi; simp [h, Array.getElem_modify_self]
  · simp [hi, Array.getElem?_modify, Ne.symm hi]

@[simp] theorem size_modify (t : Tree) (id : NodeId) (f : Component → Component) :
    (t.modify id f).size = t.size := by simp [modify, size]

@[simp] theorem size_create (t : Tree) (c : Component) : (t.create c).size = t.size + 1 := by
  simp [create, size]

@[simp] theorem size_link (t : Tree) (parent child : NodeId) :
    (t.link parent child).size = t.size := by simp [link]

@[simp] theorem size_add (t : Tree) (parent : NodeId) (c : Component) :
    (t.add parent c).size = t.size + 1 := by simp [add]

theorem node_create (t : Tree) (c : Component) (i : NodeId) :
    (t.create c).node i = if i = t.size then c.detached else t.node i := by
  unfold create node size
  by_cases hi : i = t.nodes.size
  · simp [hi]
  · simp [hi, Array.getElem?_push]

end Tree

end SymbolTable
