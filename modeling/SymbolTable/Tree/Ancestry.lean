import SymbolTable.Tree.Basic

/-!
# Walks towards the root

Each walk follows parent links from a node. A chain of parents without repetition visits at most
`Tree.size` nodes, so that number bounds the walks. A node of kind `root` counts as no parent.
-/

namespace SymbolTable

namespace Tree

/-- Every strict ancestor within `fuel` steps, nearest first. -/
def ancestorsWithin (t : Tree) : Nat → NodeId → List NodeId
  | 0, _ => []
  | fuel + 1, id =>
    match t.parent id with
    | none => []
    | some p => p :: t.ancestorsWithin fuel p

def ancestors (t : Tree) (id : NodeId) : List NodeId := t.ancestorsWithin t.size id

def findAncestorWithin (t : Tree) (accept : Component → Bool) : Nat → NodeId → Option NodeId
  | 0, _ => none
  | fuel + 1, id =>
    match t.parent id with
    | none => none
    | some p => if accept (t.node p) then some p else t.findAncestorWithin accept fuel p

/-- The nearest strict ancestor that `accept` takes. -/
def findAncestor (t : Tree) (id : NodeId) (accept : Component → Bool) : Option NodeId :=
  t.findAncestorWithin accept t.size id

def parentsWithin (t : Tree) : Nat → NodeId → List NodeId
  | 0, _ => []
  | fuel + 1, id =>
    match t.parent id with
    | none => []
    | some p => if (t.node p).kind = .root then [] else p :: t.parentsWithin fuel p

/-- The ancestors of `id` below the first node of kind `root`, nearest first. -/
def parents (t : Tree) (id : NodeId) : List NodeId := t.parentsWithin t.size id

/-- Whether `id` has a parent other than a node of kind `root`. -/
def hasEnclosing (t : Tree) (id : NodeId) : Bool :=
  (t.parent id).any fun p => (t.node p).kind ≠ .root

def outermostWithin (t : Tree) (accept : Component → Bool) : Nat → NodeId → Option NodeId
  | 0, _ => none
  | fuel + 1, id =>
    let here := if accept (t.node id) then some id else none
    match t.parent id with
    | none => here
    | some p => (t.outermostWithin accept fuel p).or here

/-- The last node that `accept` takes on the way from `id`, itself included, up to the top. -/
def outermost (t : Tree) (id : NodeId) (accept : Component → Bool) : Option NodeId :=
  t.outermostWithin accept t.size id

def lineageWithin (t : Tree) (accept : Component → Bool) (climb : Bool) :
    Nat → NodeId → List NodeId
  | 0, _ => []
  | fuel + 1, id =>
    let above :=
      match t.parent id with
      | some p => if climb ∧ t.hasEnclosing id then t.lineageWithin accept climb fuel p else []
      | none => []
    if accept (t.node id) then id :: above else above

/-- Those that `accept` takes among `id` and, with `climb`, its ancestors below the root. -/
def lineage (t : Tree) (id : NodeId) (accept : Component → Bool) (climb : Bool) : List NodeId :=
  t.lineageWithin accept climb t.size id

end Tree

end SymbolTable
