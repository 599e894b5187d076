import SymbolTable.Proofs.Tree.Assembly
import SymbolTable.Proofs.Tree.Enclosure
import Mathlib.Data.Fintype.Card
import Mathlib.Data.Fintype.EquivFin

/-!
# Parent links without cycles

Walks towards the root read parent links and nothing else. They come to an end, from attached and
from detached nodes alike, if every parent is a node of the tree and no node is its own ancestor. A
tree whose links agree on both ends is of this kind when it is free of cycles downwards.
-/

namespace SymbolTable

namespace Tree

/-- `above` is reached from `id` by one parent link or more. -/
def IsAncestor (t : Tree) (above id : NodeId) : Prop :=
  Relation.TransGen (fun id p => t.parent id = some p) id above

/-- Each parent is a node of the tree, and no node is its own ancestor. -/
structure AcyclicParents (t : Tree) : Prop where
  parent_lt : ∀ {id p}, t.parent id = some p → p < t.size
  irrefl : ∀ id, ¬ t.IsAncestor id id

variable {t : Tree} {id p : NodeId}

theorem WellLinked.acyclicParents (h : t.WellLinked) : t.AcyclicParents where
  parent_lt hp := h.agree.parent_lt hp
  irrefl id hself := by
    have hbelow : ∀ {above}, t.IsAncestor above id → t.Below above id := by
      intro above habove
      induction habove with
      | single hp => exact .child (h.agree.parent_iff.1 hp)
      | tail _ hp ih => exact (Below.child (h.agree.parent_iff.1 hp)).trans ih
    exact h.acyclic id (hbelow hself)

/-- Parent links that descend in some rank form no cycle. -/
theorem acyclicParents_of_rank (rank : NodeId → Nat)
    (hrank : ∀ id < t.size, ∀ p ∈ t.parent id, p < t.size ∧ rank p < rank id) :
    t.AcyclicParents := by
  have hparent : ∀ {id p}, t.parent id = some p → p < t.size ∧ rank p < rank id := by
    intro id p hp
    rcases Nat.lt_or_ge id t.size with hid | hid
    · exact hrank id hid p hp
    · rw [Tree.parent, node_of_size_le hid] at hp
      cases hp
  refine ⟨fun hp => (hparent hp).1, fun id hself => ?_⟩
  have hbelow : ∀ {above}, t.IsAncestor above id → rank above < rank id := by
    intro above habove
    induction habove with
    | single hp => exact (hparent hp).2
    | tail _ hp ih => exact Nat.lt_trans (hparent hp).2 ih
  exact Nat.lt_irrefl _ (hbelow hself)

namespace AcyclicParents

variable (h : t.AcyclicParents)
include h

theorem exists_ascent (hid : id < t.size) : ∃ above, t.Ascent id above := by
  -- Being an ancestor is a strict order on finitely many nodes.
  have hwf : WellFounded fun a b : Fin t.size => t.IsAncestor a b := by
    have htrans : IsTrans (Fin t.size) fun a b => t.IsAncestor a b :=
      ⟨fun _ _ _ hab hbc => hbc.trans hab⟩
    have hirrefl : Std.Irrefl fun a b : Fin t.size => t.IsAncestor a b := ⟨fun a => h.irrefl a⟩
    exact Finite.wellFounded_of_trans_of_irrefl _
  obtain ⟨i, rfl⟩ : ∃ i : Fin t.size, (i : NodeId) = id := ⟨⟨id, hid⟩, rfl⟩
  clear hid
  induction i using hwf.induction with
  | _ i ih =>
    cases hp : t.parent i with
    | none => exact ⟨[], .top hp⟩
    | some p =>
      obtain ⟨above, habove⟩ := ih ⟨p, h.parent_lt hp⟩ (.single hp)
      exact ⟨p :: above, .step hp habove⟩

theorem climbable (hid : id < t.size) : t.Climbable id := by
  obtain ⟨above, hascent⟩ := h.exists_ascent hid
  refine ⟨above, hascent, List.forall_mem_cons.2 ⟨hid, ?_⟩⟩
  clear hid
  induction hascent with
  | top => exact fun a ha => absurd ha List.not_mem_nil
  | step hp _ ih => exact List.forall_mem_cons.2 ⟨h.parent_lt hp, ih⟩

end AcyclicParents

end Tree

end SymbolTable
