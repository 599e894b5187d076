import SymbolTable.Proofs.Tree.Height
import SymbolTable.Tree.Coordinate
import SymbolTable.Tree.Traversal

/-!
# Nodes that hang below the root

A list of nodes may pass its check and still hold nodes that hang nowhere, and equal siblings. A
node that does hang below the root has one chain of parents. The chain repeats no node, so that a
climb with as much fuel as there are nodes ends at the root, and the path of a node is that of its
parent with one more symbol.
-/

namespace SymbolTable

namespace Tree

/-- Child links that ascend in some rank form no cycle. -/
theorem acyclic_of_rank {t : Tree} (rank : NodeId → Nat)
    (hrank : ∀ id < t.size, ∀ c ∈ t.children id, rank id < rank c) : t.Acyclic := by
  have hbelow : ∀ {above id}, t.Below above id → rank above < rank id := by
    intro above id h
    induction h with
    | child hc => exact hrank _ (lt_size_of_mem_children hc) _ hc
    | step _ hc ih => exact Nat.lt_trans ih (hrank _ (lt_size_of_mem_children hc) _ hc)
  exact fun _ h => Nat.lt_irrefl _ (hbelow h)

theorem acyclic_of_lt_child {t : Tree} (hlt : ∀ {id c}, c ∈ t.children id → id < c) :
    t.Acyclic := acyclic_of_rank (fun id => id) fun _ _ _ => hlt

/-! ## Chains of parents -/

/-- The nodes above an attached node, nearest first, the root included. -/
inductive Chain (t : Tree) : NodeId → List NodeId → Prop
  | root : Chain t root []
  | child {id c : NodeId} {above : List NodeId} (h : Chain t id above) (hc : c ∈ t.children id) :
    Chain t c (id :: above)

namespace Chain

variable {t : Tree} {c : NodeId} {above : List NodeId}

theorem lies_below (h : t.Chain c above) : ∀ a ∈ above, a < t.size ∧ t.Below a c := by
  induction h with
  | root => exact fun a ha => absurd ha List.not_mem_nil
  | child _ hc ih =>
    intro a ha
    rcases List.mem_cons.1 ha with rfl | ha
    · exact ⟨lt_size_of_mem_children hc, .child hc⟩
    · exact (ih a ha).imp_right (.step · hc)

theorem lt_size (h : t.Chain c above) (hlinked : t.Linked) (hlt : Tree.root < t.size) : c < t.size := by
  cases h with
  | root => exact hlt
  | child _ hc => exact hlinked.child_lt hc

/-- What lies below a node has a longer chain, which goes through that node. -/
theorem of_below (h : t.Chain c above) {j : NodeId} (hj : t.Below c j) :
    ∃ between, t.Chain j (between ++ c :: above) := by
  induction hj with
  | child hd => exact ⟨[], .child h hd⟩
  | @step mid _ _ hd ih =>
    obtain ⟨between, hmid⟩ := ih
    exact ⟨mid :: between, .child hmid hd⟩

section Linked

variable (hlinked : t.Linked) (hroot : t.parent Tree.root = none)
include hlinked hroot

theorem ne_root_of_mem_children {id : NodeId} (hc : c ∈ t.children id) : c ≠ Tree.root := by
  rintro rfl
  have hparent := hlinked.parent_child hc
  rw [hroot] at hparent
  cases hparent

/-- A node has one parent at most and the root has none, so there is one way up. -/
theorem unique (h : t.Chain c above) {above' : List NodeId} (h' : t.Chain c above') :
    above = above' := by
  induction h generalizing above' with
  | root =>
    cases h' with
    | root => rfl
    | child _ hc => exact absurd rfl (ne_root_of_mem_children hlinked hroot hc)
  | child _ hc ih =>
    cases h' with
    | root => exact absurd rfl (ne_root_of_mem_children hlinked hroot hc)
    | child h' hc' =>
      have hparent := (hlinked.parent_child hc).symm.trans (hlinked.parent_child hc')
      obtain rfl := Option.some.inj hparent
      rw [ih h']

/-- A cycle would give a node two chains. -/
theorem not_below_self (h : t.Chain c above) : ¬ t.Below c c := by
  intro hc
  obtain ⟨between, hlonger⟩ := h.of_below hc
  have hlength := congrArg List.length (unique hlinked hroot h hlonger)
  rw [List.length_append, List.length_cons] at hlength
  omega

theorem nodup (h : t.Chain c above) : above.Nodup := by
  induction h with
  | root => exact List.nodup_nil
  | child h _ ih =>
    refine List.nodup_cons.2 ⟨fun hmem => ?_, ih⟩
    exact not_below_self hlinked hroot h (h.lies_below _ hmem).2

theorem length_lt (h : t.Chain c above) (hlt : Tree.root < t.size) : above.length < t.size :=
  length_lt_size_of_above (not_below_self hlinked hroot h) (h.lt_size hlinked hlt)
    (nodup hlinked hroot h) h.lies_below

/-- Cycles elsewhere in the tree do not matter below an attached node. -/
theorem shallow (h : t.Chain c above) : t.Shallow t.size c := by
  refine shallow_of_free fun j hj => ?_
  rcases hj with rfl | hj
  · exact not_below_self hlinked hroot h
  · obtain ⟨between, hchain⟩ := h.of_below hj
    exact not_below_self hlinked hroot hchain

end Linked

end Chain

/-! ## Planted trees -/

/-- Links agree and the first node is the only root. Nodes may hang nowhere, in cycles too. -/
structure Upright (t : Tree) : Prop where
  linked : t.Linked
  root_lt : root < t.size
  parent_root : t.parent root = none
  kind_root : (t.node root).kind = .root
  kind_ne_root : ∀ {id}, root < id → id < t.size → (t.node id).kind ≠ .root

/-- Links agree, there are no cycles, and the first node is the only root. -/
structure Planted (t : Tree) : Prop where
  linked : t.Linked
  acyclic : t.Acyclic
  root_lt : root < t.size
  parent_root : t.parent root = none
  kind_root : (t.node root).kind = .root
  kind_ne_root : ∀ {id}, root < id → id < t.size → (t.node id).kind ≠ .root

theorem Planted.upright {t : Tree} (h : t.Planted) : t.Upright :=
  ⟨h.linked, h.root_lt, h.parent_root, h.kind_root, h.kind_ne_root⟩

/-- The node hangs below the root or is the root. -/
def Attached (t : Tree) (id : NodeId) : Prop := ∃ above, t.Chain id above

theorem attached_root (t : Tree) : t.Attached root := ⟨[], .root⟩

theorem Attached.child {t : Tree} {id c : NodeId} (h : t.Attached id) (hc : c ∈ t.children id) :
    t.Attached c := by
  obtain ⟨above, hchain⟩ := h
  exact ⟨id :: above, .child hchain hc⟩

/-- What holds the root and is closed under child links holds every attached node. -/
theorem Attached.mem_of_closed {t : Tree} {id : NodeId} {ids : List NodeId} (h : t.Attached id)
    (hroot : root ∈ ids) (hclosed : ∀ id ∈ ids, ∀ c ∈ t.children id, c ∈ ids) : id ∈ ids := by
  obtain ⟨above, hchain⟩ := h
  induction hchain with
  | root => exact hroot
  | child _ hc ih => exact hclosed _ ih _ hc

theorem attached_iff {t : Tree} {id : NodeId} : t.Attached id ↔ id = root ∨ t.Below root id := by
  constructor
  · rintro ⟨above, hchain⟩
    induction hchain with
    | root => exact .inl rfl
    | child _ hc ih =>
      rcases ih with rfl | hbelow
      · exact .inr (.child hc)
      · exact .inr (.step hbelow hc)
  · rintro (rfl | hbelow)
    · exact t.attached_root
    · induction hbelow with
      | child hc => exact t.attached_root.child hc
      | step _ hc ih => exact ih.child hc

namespace Upright

variable {t : Tree} (h : t.Upright) {id c : NodeId} {above : List NodeId}
include h

theorem pos_of_mem_children (hc : c ∈ t.children id) : root < c :=
  Nat.pos_of_ne_zero (Chain.ne_root_of_mem_children h.linked h.parent_root hc)

/-- A climb with enough fuel lists the chain up to the root. -/
theorem parentsWithin_eq {fuel : Nat} (hchain : t.Chain c above) (hf : above.length ≤ fuel) :
    t.parentsWithin fuel c = above.dropLast := by
  induction hchain generalizing fuel with
  | root => cases fuel <;> simp [parentsWithin, h.parent_root]
  | @child id c above hchain hc ih =>
    obtain ⟨fuel, rfl⟩ : ∃ n, fuel = n + 1 := ⟨fuel - 1, by simp at hf; omega⟩
    have hrest := ih (Nat.le_of_succ_le_succ hf)
    simp only [parentsWithin, h.linked.parent_child hc]
    cases hchain with
    | root => simp [h.kind_root]
    | child _ hid =>
      have hkind := h.kind_ne_root (h.pos_of_mem_children hid) (h.linked.child_lt hid)
      rw [if_neg hkind, hrest, List.dropLast_cons_cons]

theorem parents_eq (hchain : t.Chain c above) : t.parents c = above.dropLast :=
  h.parentsWithin_eq hchain (Nat.le_of_lt (hchain.length_lt h.linked h.parent_root h.root_lt))

theorem identityPath_root : t.identityPath root = [] := by
  rw [identityPath, h.parents_eq .root, if_pos h.kind_root]
  rfl

/-- The path of a child is the path of its parent and one symbol. -/
theorem identityPath_child (hid : t.Attached id) (hc : c ∈ t.children id) :
    t.identityPath c = t.identityPath id ++ [(t.node c).symbol] := by
  obtain ⟨above, hchain⟩ := hid
  have hkind := h.kind_ne_root (h.pos_of_mem_children hc) (h.linked.child_lt hc)
  rw [identityPath, identityPath, h.parents_eq (.child hchain hc), h.parents_eq hchain,
    if_neg hkind]
  cases hchain with
  | root => simp [h.kind_root]
  | @child p _ above _ hp =>
    have hkind' := h.kind_ne_root (h.pos_of_mem_children hp) (h.linked.child_lt hp)
    rw [if_neg hkind', List.dropLast_cons_cons]
    simp

end Upright

/-! ## Grown trees are planted -/

namespace Grown

variable {t : Tree} (h : t.Grown)
include h

theorem acyclic : t.Acyclic := acyclic_of_lt_child h.lt_child

theorem planted : t.Planted :=
  ⟨h.linked, h.acyclic, h.root_lt, h.parent_root, h.kind_root, h.kind_ne_root⟩

theorem upright : t.Upright := h.planted.upright

theorem attached_of_lt {id : NodeId} (hid : id < t.size) : t.Attached id := by
  induction id using Nat.strongRecOn with
  | ind id ih =>
    rcases Nat.eq_zero_or_pos id with rfl | hpos
    · exact t.attached_root
    · obtain ⟨p, hp⟩ := h.attached hpos hid
      exact (ih p (h.lt_child hp) (lt_size_of_mem_children hp)).child hp

theorem below_root {id : NodeId} (hpos : root < id) (hid : id < t.size) : t.Below root id :=
  (attached_iff.1 (h.attached_of_lt hid)).resolve_left (Nat.ne_of_gt hpos)

end Grown

/-! ## Pre-order -/

section Preorder

variable {t : Tree}

theorem preorderWithin_succ (t : Tree) (fuel : Nat) (id : NodeId) :
    t.preorderWithin (fuel + 1) id =
      (t.children id).flatMap fun c => c :: t.preorderWithin fuel c := rfl

/-- A walk whose fuel is the height of the subtree meets what lies below its start. -/
theorem mem_preorderWithin_iff {fuel : Nat} {id j : NodeId} (hf : t.Shallow fuel id) :
    j ∈ t.preorderWithin fuel id ↔ t.Below id j := by
  induction fuel generalizing id with
  | zero =>
    have hnil : t.children id = [] := hf
    rw [below_iff]
    simp [preorderWithin, hnil]
  | succ fuel ih =>
    rw [preorderWithin_succ, List.mem_flatMap, below_iff]
    refine exists_congr fun c => and_congr_right fun hc => ?_
    rw [List.mem_cons, ih (hf c hc)]

theorem mem_preorder_iff (h : t.Acyclic) {id j : NodeId} : j ∈ t.preorder id ↔ t.Below id j :=
  mem_preorderWithin_iff (h.shallow id)

end Preorder

end Tree

end SymbolTable
