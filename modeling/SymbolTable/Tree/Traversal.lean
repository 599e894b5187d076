import SymbolTable.Tree.Basic

/-!
# Walks away from the root

`preorder` is the recursive listing of a subtree. `descendants` gives the same list with an explicit
stack, which is how long outputs are listed. A subtree of a tree with acyclic links is at most
`Tree.size` levels deep; a child listed twice is visited twice, so the stack takes as many steps
as `visits` counts.
-/

namespace SymbolTable

namespace Tree

def preorderWithin (t : Tree) : Nat → NodeId → List NodeId
  | 0, _ => []
  | fuel + 1, id => (t.children id).flatMap fun c => c :: t.preorderWithin fuel c

/-- The nodes below `id`, each child followed by the nodes below it. -/
def preorder (t : Tree) (id : NodeId) : List NodeId := t.preorderWithin t.size id

def visitsWithin (t : Tree) : Nat → NodeId → Nat
  | 0, _ => 0
  | fuel + 1, id => (t.children id).foldr (fun c steps => 1 + t.visitsWithin fuel c + steps) 0

/-- How many nodes a walk below `id` meets. -/
def visits (t : Tree) (id : NodeId) : Nat := t.visitsWithin t.size id

/-- Pops a node, lists it and pushes its children, until the stack or the fuel runs out. -/
def drain (t : Tree) : Nat → List NodeId → List NodeId
  | 0, _ => []
  | _ + 1, [] => []
  | fuel + 1, id :: stack => id :: t.drain fuel (t.children id ++ stack)

/-- The nodes attached below `id` in pre-order. -/
def descendants (t : Tree) (id : NodeId) : List NodeId := t.drain (t.visits id) (t.children id)

end Tree

end SymbolTable
