import SymbolTable.Tree.Basic

/-!
# Consistency of a node list

Node lists read from a file may hold any ids. A list is accepted when its first node is a root
without parent and every listed child is in range and names the lister as its parent.
-/

namespace SymbolTable

namespace Tree

/-- The children of node `i` are in range and point back to `i`. -/
def childrenAgree (t : Tree) (i : NodeId) (c : Component) : Bool :=
  c.children.all fun child =>
    match t.nodes[child]? with
    | some node => node.parent = some i
    | none => false

def isConsistent (t : Tree) : Bool :=
  match t.nodes[0]? with
  | none => false
  | some top =>
    top.kind = .root && top.parent.isNone &&
      t.nodes.toList.zipIdx.all fun (node, i) => t.childrenAgree i node

/-- No node has two children of one symbol. -/
def HasUniqueSiblings (t : Tree) : Prop :=
  ∀ id, ((t.children id).map fun c => (t.node c).symbol).Nodup

/-- `below` is reached from `above` by following child links at least once. -/
inductive Below (t : Tree) (above : NodeId) : NodeId → Prop
  | child {id : NodeId} : id ∈ t.children above → Below t above id
  | step {mid id : NodeId} : Below t above mid → id ∈ t.children mid → Below t above id

/-- No node lies below itself. -/
def Acyclic (t : Tree) : Prop := ∀ id, ¬ Below t id id

end Tree

end SymbolTable
