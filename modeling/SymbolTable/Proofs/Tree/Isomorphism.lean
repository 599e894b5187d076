import SymbolTable.Proofs.Tree.Outline
import SymbolTable.Proofs.Tree.Walks

/-!
# Isomorphic trees

Two subtrees are isomorphic when their nodes carry the same labels and their children can be paired
off so that the subtrees of each pair are isomorphic in turn. Ids have no part in it, nor have the
nodes that hang elsewhere. One notion takes lists of children and of attributes as they are, the
other one up to their order. The second is all that a canonical outline sees.
-/

namespace SymbolTable

namespace Tree

/-- The subtrees at `id` of `t` and at `id'` of `t'` carry the same labels. Lists of attributes and
of children are compared by `same`. -/
inductive Matches (same : ∀ α : Type, List α → List α → Prop) (t t' : Tree) : NodeId → NodeId → Prop
  | node {id id' : NodeId} (pairs : List (NodeId × NodeId))
    (symbol : (t'.node id').symbol = (t.node id).symbol)
    (attributes : same Attribute (t'.node id').attributes (t.node id).attributes)
    (left : same NodeId (pairs.map Prod.fst) (t.children id))
    (right : same NodeId (pairs.map Prod.snd) (t'.children id'))
    (below : ∀ pair ∈ pairs, Matches same t t' pair.1 pair.2) : Matches same t t' id id'

/-- The subtrees are equal but for the ids of their nodes. -/
def SameSubtree (t t' : Tree) : NodeId → NodeId → Prop := Matches (fun _ => Eq) t t'

/-- The subtrees are equal but for the ids of their nodes, the order of children and the order of
attributes. -/
def Isomorphic (t t' : Tree) : NodeId → NodeId → Prop := Matches (fun _ => List.Perm) t t'

variable {t t' : Tree} {id id' : NodeId}

/-! ## Renumbered trees -/

/-- The attached nodes of `t` have their likes in `t'`, under the ids that `rename` gives. -/
structure Renumbers (t t' : Tree) (rename : NodeId → NodeId) : Prop where
  symbol : ∀ id, t.Attached id → (t'.node (rename id)).symbol = (t.node id).symbol
  attributes : ∀ id, t.Attached id →
    (t'.node (rename id)).attributes.Perm (t.node id).attributes
  children : ∀ id, t.Attached id →
    (t'.children (rename id)).Perm ((t.children id).map rename)

/-- Other ids make an isomorphic tree, whatever else the arrays of nodes hold. -/
theorem Renumbers.isomorphic {rename : NodeId → NodeId} (h : t.Renumbers t' rename)
    (hacyclic : t.Acyclic) (hid : t.Attached id) : t.Isomorphic t' id (rename id) := by
  induction id using hacyclic.induction with
  | node id ih =>
    have hleft : ((t.children id).map fun c => (c, rename c)).map Prod.fst = t.children id := by
      rw [List.map_map]
      exact List.map_id _
    have hright : ((t.children id).map fun c => (c, rename c)).map Prod.snd =
        (t.children id).map rename := List.map_map
    exact .node _ (h.symbol id hid) (h.attributes id hid) (.of_eq hleft)
      (hright ▸ (h.children id hid).symm)
      (List.forall_mem_map.2 fun c hc => ih c hc (hid.child hc))

/-! ## Canonical outlines -/

/-- Paired siblings give the same blocks, and sorting forgets their order. -/
theorem canonicalWithin_eq_of_isomorphic (h : t.Acyclic) (h' : t'.Acyclic)
    (hiso : t.Isomorphic t' id id') (depth : Nat) :
    t'.canonicalWithin (t'.size + 1) depth id' = t.canonicalWithin (t.size + 1) depth id := by
  -- The pairs list the children of both nodes, of each in an order of their own.
  induction hiso generalizing depth with
  | @node id id' pairs hsymbol hattributes hleft hright _ ih =>
    have hline := Component.canonicalLine_congr hsymbol hattributes
    have hblocks : ((t'.children id').map (t'.canonicalWithin (t'.size + 1) (depth + 1))).Perm
        ((t.children id).map (t.canonicalWithin (t.size + 1) (depth + 1))) := by
      refine (hright.symm.map _).trans (.trans (.of_eq ?_) (hleft.map _))
      rw [List.map_map, List.map_map]
      exact List.map_congr_left fun pair hpair => ih pair hpair (depth + 1)
    rw [← canonicalWithin_size_eq (h'.shallow id'), ← canonicalWithin_size_eq (h.shallow id),
      canonicalWithin, canonicalWithin, hline, sort_texts_congr hblocks]

/-- The canonical outline depends on nothing but the attached part of a tree, up to the order of
children and of attributes. -/
theorem canonicalOutline_eq_of_isomorphic (h : t.Acyclic) (h' : t'.Acyclic)
    (hiso : t.Isomorphic t' root root) : t'.canonicalOutline = t.canonicalOutline :=
  canonicalWithin_eq_of_isomorphic h h' hiso 0

/-- The class `A` has two fields of one name, and only one of them is public. -/
def twinFieldTree : Tree where
  nodes := #[
    { kind := .root, value := "ROOT", children := [1, 2] },
    { kind := .classType, value := "A", attributes := [⟨.modifier, "public"⟩, ⟨.startLine, "1"⟩],
      children := [3, 4], parent := some 0 },
    { kind := .classType, value := "B", parent := some 0 },
    { kind := .field, value := "x", attributes := [⟨.modifier, "public"⟩], parent := some 1 },
    { kind := .field, value := "x", parent := some 1 }]

/-- The same classes in another order and under other ids, and a class that hangs nowhere. -/
def shuffledTree : Tree where
  nodes := #[
    { kind := .root, value := "ROOT", children := [3, 4] },
    { kind := .field, value := "x", attributes := [⟨.modifier, "public"⟩], parent := some 4 },
    { kind := .field, value := "x", parent := some 4 },
    { kind := .classType, value := "B", parent := some 0 },
    { kind := .classType, value := "A", attributes := [⟨.startLine, "1"⟩, ⟨.modifier, "public"⟩],
      children := [2, 1], parent := some 0 },
    { kind := .classType, value := "C" }]

def shuffle : NodeId → NodeId
  | 1 => 4
  | 2 => 3
  | 3 => 1
  | 4 => 2
  | id => id

theorem renumbers_shuffle : twinFieldTree.Renumbers shuffledTree shuffle := by
  have hids : ∀ {id}, twinFieldTree.Attached id → id ∈ [0, 1, 2, 3, 4] :=
    fun hid => hid.mem_of_closed (by decide) (by decide)
  have hsymbols : ∀ id ∈ [0, 1, 2, 3, 4],
      (shuffledTree.node (shuffle id)).symbol = (twinFieldTree.node id).symbol := by decide
  have hattributes : ∀ id ∈ [0, 1, 2, 3, 4],
      (shuffledTree.node (shuffle id)).attributes.Perm (twinFieldTree.node id).attributes := by
    decide
  have hchildren : ∀ id ∈ [0, 1, 2, 3, 4],
      (shuffledTree.children (shuffle id)).Perm ((twinFieldTree.children id).map shuffle) := by
    decide
  exact ⟨fun id hid => hsymbols id (hids hid), fun id hid => hattributes id (hids hid),
    fun id hid => hchildren id (hids hid)⟩

theorem acyclic_twinFieldTree : twinFieldTree.Acyclic := acyclic_of_rank (fun id => id) (by decide)

theorem acyclic_shuffledTree : shuffledTree.Acyclic :=
  acyclic_of_rank (fun id => if id = 0 then 0 else if id = 4 then 1 else 2) (by decide)

theorem canonicalOutline_shuffledTree :
    twinFieldTree.Acyclic ∧ shuffledTree.Acyclic ∧
    twinFieldTree.Isomorphic shuffledTree root root ∧
    shuffledTree.canonicalOutline = twinFieldTree.canonicalOutline := by
  have hiso := renumbers_shuffle.isomorphic acyclic_twinFieldTree (attached_root _)
  exact ⟨acyclic_twinFieldTree, acyclic_shuffledTree, hiso,
    canonicalOutline_eq_of_isomorphic acyclic_twinFieldTree acyclic_shuffledTree hiso⟩

end Tree

end SymbolTable
