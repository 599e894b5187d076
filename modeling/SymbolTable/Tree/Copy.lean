import SymbolTable.Tree.Basic

/-!
# Copying and merging subtrees

Copying appends the nodes of a subtree in pre-order. Merging walks two trees side by side: it unions
attributes, descends into the first child of the same symbol and copies the subtrees that have none.
Both recurse on the source, whose depth is at most its size.
-/

namespace SymbolTable

namespace Tree

def copyWithin (source : Tree) : Nat → Tree → NodeId → NodeId → Tree
  | 0, t, _, _ => t
  | fuel + 1, t, parent, id =>
    (source.children id).foldl (fun acc c => source.copyWithin fuel acc t.size c)
      (t.add parent (source.node id))

/-- Copies the subtree of `source` at `id` below `parent`; the copy of `id` gets the old size as
its id. -/
def copySubtree (t : Tree) (parent : NodeId) (source : Tree) (id : NodeId) : Tree :=
  source.copyWithin (source.size + 1) t parent id

def mergeWithin (source : Tree) : Nat → Tree → NodeId → NodeId → Tree
  | 0, t, _, _ => t
  | fuel + 1, t, target, id =>
    (source.children id).foldl
      (fun acc c =>
        match acc.findChild target (source.node c) with
        | some existing => source.mergeWithin fuel acc existing c
        | none => acc.copySubtree target source c)
      (t.modify target fun node => node.uniteAttributes (source.node id).attributes)

/-- Merges the subtree of `source` at `id` into the node `target`. -/
def mergeAt (t : Tree) (target : NodeId) (source : Tree) (id : NodeId) : Tree :=
  source.mergeWithin (source.size + 1) t target id

/-- Merges `source` into `t`, root to root. -/
def merge (t source : Tree) : Tree := t.mergeAt root source root

end Tree

end SymbolTable
