import SymbolTable.Proofs.Tree.Growth
import Mathlib.Data.List.Nodup
import Mathlib.Data.List.Range

/-!
# The height of a subtree

A walk along child links stops early when the chains it follows are longer than its fuel. In an
acyclic tree no chain is longer than the number of nodes, because it visits each of them at most
once; the ids need not ascend for that.
-/

namespace SymbolTable

namespace Tree

/-- No chain of child links from a node has more than the given number of links. -/
def Shallow (t : Tree) : Nat → NodeId → Prop
  | 0, id => t.children id = []
  | n + 1, id => ∀ c ∈ t.children id, t.Shallow n c

variable {t : Tree}

/-- What lies below a node lies below one of its children or is one of them. -/
theorem below_iff {id j : NodeId} :
    t.Below id j ↔ ∃ c ∈ t.children id, j = c ∨ t.Below c j := by
  constructor
  · intro h
    induction h with
    | child hc => exact ⟨_, hc, .inl rfl⟩
    | step _ hc ih =>
      obtain ⟨d, hd, rfl | hbelow⟩ := ih
      · exact ⟨_, hd, .inr (.child hc)⟩
      · exact ⟨d, hd, .inr (.step hbelow hc)⟩
  · rintro ⟨c, hc, rfl | hbelow⟩
    · exact .child hc
    · induction hbelow with
      | child hd => exact .step (.child hc) hd
      | step _ hd ih => exact .step ih hd

theorem not_below_of_leaf {id j : NodeId} (hleaf : t.children id = []) : ¬ t.Below id j := by
  intro h
  obtain ⟨c, hc, -⟩ := below_iff.1 h
  rw [hleaf] at hc
  cases hc

theorem length_lt_size {id : NodeId} {others : List NodeId} (hnodup : (id :: others).Nodup)
    (hid : id < t.size) (hothers : ∀ a ∈ others, a < t.size) : others.length < t.size := by
  have hsub : id :: others ⊆ List.range t.size := by
    intro a ha
    rw [List.mem_range]
    rcases List.mem_cons.1 ha with rfl | ha
    · exact hid
    · exact hothers a ha
  have hlength := hnodup.length_le_of_subset hsub
  rwa [List.length_cons, List.length_range] at hlength

/-- Nodes above `id` and `id` itself are different nodes, so there are not more than `t` has. -/
theorem length_lt_size_of_above {id : NodeId} {above : List NodeId} (hfree : ¬ t.Below id id)
    (hid : id < t.size) (hnodup : above.Nodup)
    (habove : ∀ a ∈ above, a < t.size ∧ t.Below a id) : above.length < t.size :=
  length_lt_size (List.nodup_cons.2 ⟨fun hmem => hfree (habove id hmem).2, hnodup⟩) hid
    fun a ha => (habove a ha).1

/-- Only cycles at or below a node can make a chain that starts there long. -/
theorem shallow_of_above {n : Nat} {id : NodeId} {above : List NodeId}
    (hfree : ∀ j, j = id ∨ t.Below id j → ¬ t.Below j j) (hnodup : above.Nodup)
    (habove : ∀ a ∈ above, a < t.size ∧ t.Below a id) (hn : t.size ≤ above.length + n) :
    t.Shallow n id := by
  have hself := hfree id (.inl rfl)
  induction n generalizing id above with
  | zero =>
    refine List.eq_nil_iff_forall_not_mem.2 fun c hc => ?_
    exact absurd (length_lt_size_of_above hself (lt_size_of_mem_children hc) hnodup habove)
      (Nat.not_lt_of_le hn)
  | succ n ih =>
    intro c hc
    have hbelow : ∀ j, j = c ∨ t.Below c j → ¬ t.Below j j := fun j hj =>
      hfree j (.inr (below_iff.2 ⟨c, hc, hj⟩))
    apply ih hbelow (List.nodup_cons.2 ⟨fun hmem => hself (habove id hmem).2, hnodup⟩)
    · intro a ha
      rcases List.mem_cons.1 ha with rfl | ha
      · exact ⟨lt_size_of_mem_children hc, .child hc⟩
      · exact ⟨(habove a ha).1, .step (habove a ha).2 hc⟩
    · rw [List.length_cons]
      omega
    · exact hbelow c (.inl rfl)

theorem shallow_of_free {id : NodeId} (hfree : ∀ j, j = id ∨ t.Below id j → ¬ t.Below j j) :
    t.Shallow t.size id :=
  shallow_of_above hfree List.nodup_nil (fun _ ha => absurd ha List.not_mem_nil)
    (Nat.le_add_left _ _)

theorem Acyclic.shallow (h : t.Acyclic) (id : NodeId) : t.Shallow t.size id :=
  shallow_of_free fun j _ => h j

/-- What each node inherits from its children holds of every node. -/
theorem Acyclic.induction (h : t.Acyclic) {P : NodeId → Prop}
    (node : ∀ id, (∀ c ∈ t.children id, P c) → P id) (id : NodeId) : P id := by
  have hheight := h.shallow id
  generalize t.size = n at hheight
  induction n generalizing id with
  | zero =>
    have hnil : t.children id = [] := hheight
    exact node id fun c hc => absurd (hnil ▸ hc) List.not_mem_nil
  | succ n ih => exact node id fun c hc => ih c (hheight c hc)

end Tree

end SymbolTable
