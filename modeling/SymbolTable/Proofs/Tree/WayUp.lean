import SymbolTable.Proofs.Tree.Ancestry

/-!
# Searches on the way up

Each walk towards the root stops in its own way: some at the first node of kind `root`, some at a
node without parent, some at what they look for. Where the way up ends, each of them is a function
of the list of ancestors on the library's lists. A walk that stops before nodes of kind `root` sees
the same list as one that goes on, but for these nodes, as long as they are not below others.
-/

namespace SymbolTable

namespace Tree

variable {t : Tree} {id : NodeId} {above : List NodeId}

namespace Ascent

theorem findAncestorWithin_eq (h : t.Ascent id above) (accept : Component → Bool) {fuel : Nat}
    (hf : above.length ≤ fuel) :
    t.findAncestorWithin accept fuel id = above.find? fun a => accept (t.node a) := by
  induction h generalizing fuel with
  | top hp => cases fuel <;> simp [findAncestorWithin, hp]
  | @step id p above hp _ ih =>
    obtain ⟨fuel, rfl⟩ := Nat.exists_eq_succ_of_ne_zero (Nat.ne_zero_of_lt hf)
    rw [findAncestorWithin, hp, List.find?_cons, ← ih (Nat.le_of_succ_le_succ hf)]
    cases haccept : accept (t.node p) <;> simp [haccept]

theorem parentsWithin_eq (h : t.Ascent id above) {fuel : Nat} (hf : above.length ≤ fuel) :
    t.parentsWithin fuel id = above.takeWhile fun a => (t.node a).kind ≠ .root := by
  induction h generalizing fuel with
  | top hp => cases fuel <;> simp [parentsWithin, hp]
  | @step id p above hp _ ih =>
    obtain ⟨fuel, rfl⟩ := Nat.exists_eq_succ_of_ne_zero (Nat.ne_zero_of_lt hf)
    rw [parentsWithin, hp, List.takeWhile_cons, ← ih (Nat.le_of_succ_le_succ hf)]
    by_cases hkind : (t.node p).kind = .root <;> simp [hkind]

theorem lineageWithin_eq (h : t.Ascent id above) (accept : Component → Bool) {fuel : Nat}
    (hf : above.length < fuel) :
    t.lineageWithin accept true fuel id =
      (id :: above.takeWhile fun a => (t.node a).kind ≠ .root).filter
        fun a => accept (t.node a) := by
  induction h generalizing fuel with
  | top hp =>
    obtain ⟨fuel, rfl⟩ := Nat.exists_eq_succ_of_ne_zero (Nat.ne_zero_of_lt hf)
    rw [lineageWithin, hp, List.filter_cons]
    rfl
  | @step id p above hp _ ih =>
    obtain ⟨fuel, rfl⟩ := Nat.exists_eq_succ_of_ne_zero (Nat.ne_zero_of_lt hf)
    have henclosing : t.hasEnclosing id = decide ((t.node p).kind ≠ .root) := by
      rw [hasEnclosing, hp]
      rfl
    rw [lineageWithin, hp, List.filter_cons, List.takeWhile_cons, henclosing]
    by_cases hkind : (t.node p).kind = .root
    · simp [hkind]
    · simp only [ih (Nat.lt_of_succ_lt_succ hf), hkind, ne_eq, not_false_eq_true, decide_true,
        and_self, if_true]

/-- Nodes of kind `root` are last, so nothing behind them is lost. -/
theorem takeWhile_eq_filter (h : t.Ascent id above) (hlt : ∀ a ∈ above, a < t.size)
    (hroot : ∀ i < t.size, (t.node i).kind = .root → t.parent i = none) :
    (above.takeWhile fun a => (t.node a).kind ≠ .root) =
      above.filter fun a => (t.node a).kind ≠ .root := by
  induction h with
  | top => rfl
  | @step id p above hp h ih =>
    rw [List.forall_mem_cons] at hlt
    rw [List.takeWhile_cons, List.filter_cons, ih hlt.2]
    by_cases hkind : (t.node p).kind = .root
    · cases h with
      | top => simp [hkind]
      | step hq => simp [hroot p hlt.1 hkind] at hq
    · simp [hkind]

end Ascent

namespace Climbable

variable (h : t.Climbable id)
include h

theorem findAncestor_eq (accept : Component → Bool) :
    t.findAncestor id accept = (t.ancestors id).find? fun a => accept (t.node a) := by
  obtain ⟨hascent, hlength, -⟩ := h.ascent
  exact hascent.findAncestorWithin_eq accept (Nat.le_of_lt hlength)

theorem parents_eq_takeWhile :
    t.parents id = (t.ancestors id).takeWhile fun a => (t.node a).kind ≠ .root := by
  obtain ⟨hascent, hlength, -⟩ := h.ascent
  exact hascent.parentsWithin_eq (Nat.le_of_lt hlength)

theorem lineage_eq (accept : Component → Bool) :
    t.lineage id accept true = (id :: t.parents id).filter fun a => accept (t.node a) := by
  obtain ⟨hascent, hlength, -⟩ := h.ascent
  rw [h.parents_eq_takeWhile]
  exact hascent.lineageWithin_eq accept hlength

section Root

variable (hroot : ∀ i < t.size, (t.node i).kind = .root → t.parent i = none)
  {accept : Component → Bool} (hrefuse : ∀ c : Component, c.kind = .root → accept c = false)
include hroot

theorem parents_eq_filter :
    t.parents id = (t.ancestors id).filter fun a => (t.node a).kind ≠ .root := by
  obtain ⟨hascent, -, hlt⟩ := h.ascent
  rw [h.parents_eq_takeWhile]
  exact hascent.takeWhile_eq_filter hlt hroot

include hrefuse

/-- What refuses nodes of kind `root` accepts the same nodes among the parents as among the
ancestors. -/
theorem filter_parents :
    (t.parents id).filter (fun a => accept (t.node a)) =
      (t.ancestors id).filter fun a => accept (t.node a) := by
  rw [h.parents_eq_filter hroot, List.filter_filter]
  refine List.filter_congr fun a _ => ?_
  by_cases hkind : (t.node a).kind = .root
  · simp [hkind, hrefuse]
  · simp [hkind]

theorem findAncestor_eq_find?_parents :
    t.findAncestor id accept = (t.parents id).find? fun a => accept (t.node a) := by
  rw [h.findAncestor_eq, ← List.head?_filter, ← List.head?_filter, h.filter_parents hroot hrefuse]

theorem outermost_eq_getLast?_parents :
    t.outermost id accept =
      ((id :: t.parents id).filter fun a => accept (t.node a)).getLast? := by
  obtain ⟨hascent, hlength, -⟩ := h.ascent
  rw [getLast?_filter_cons, h.filter_parents hroot hrefuse, ← getLast?_filter_cons]
  exact hascent.outermostWithin_eq accept hlength

end Root

end Climbable

end Tree

end SymbolTable
