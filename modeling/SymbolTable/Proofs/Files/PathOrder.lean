import SymbolTable.Files.Path

/-!
# The order of paths

Paths are compared step by step. That orders their steps totally, so that two paths are on a par
just when they have the same steps; their texts may still differ.
-/

namespace SymbolTable

namespace Path

namespace Step

theorem le_total (a b : Step) : a.le b || b.le a := by
  cases a <;> cases b <;> simp [le, rank, String.le_total]

theorem le_trans {a b c : Step} (hab : a.le b) (hbc : b.le c) : a.le c := by
  cases a <;> cases b <;> cases c <;> simp_all [le, rank]
  exact String.le_trans hab hbc

theorem le_antisymm {a b : Step} (hab : a.le b) (hba : b.le a) : a = b := by
  cases a <;> cases b <;> simp_all [le, rank]
  exact String.le_antisymm hab hba

end Step

theorem stepsLe_refl (a : List Step) : stepsLe a a := by
  induction a with
  | nil => rfl
  | cons s a ih => simpa [stepsLe] using ih

theorem stepsLe_total (a b : List Step) : stepsLe a b || stepsLe b a := by
  induction a generalizing b with
  | nil => simp [stepsLe]
  | cons s a ih =>
    cases b with
    | nil => simp [stepsLe]
    | cons t b =>
      by_cases hst : s = t
      · subst hst
        simpa [stepsLe] using ih b
      · simpa [stepsLe, hst, Ne.symm hst] using Step.le_total s t

theorem stepsLe_antisymm {a b : List Step} (hab : stepsLe a b) (hba : stepsLe b a) : a = b := by
  induction a generalizing b with
  | nil =>
    cases b with
    | nil => rfl
    | cons t b => cases hba
  | cons s a ih =>
    cases b with
    | nil => cases hab
    | cons t b =>
      by_cases hst : s = t
      · subst hst
        rw [stepsLe, if_pos rfl] at hab hba
        rw [ih hab hba]
      · rw [stepsLe, if_neg hst] at hab
        rw [stepsLe, if_neg (Ne.symm hst)] at hba
        exact absurd (Step.le_antisymm hab hba) hst

theorem stepsLe_trans {a b c : List Step} (hab : stepsLe a b) (hbc : stepsLe b c) :
    stepsLe a c := by
  induction a generalizing b c with
  | nil => simp [stepsLe]
  | cons s a ih =>
    cases b with
    | nil => cases hab
    | cons t b =>
      cases c with
      | nil => cases hbc
      | cons u c =>
        by_cases hst : s = t
        · subst hst
          rw [stepsLe, if_pos rfl] at hab
          rw [stepsLe] at hbc ⊢
          split at hbc
          · next hsu => rw [if_pos hsu]; exact ih hab hbc
          · next hsu => rwa [if_neg hsu]
        · rw [stepsLe, if_neg hst] at hab
          by_cases htu : t = u
          · subst htu
            rwa [stepsLe, if_neg hst]
          · rw [stepsLe, if_neg htu] at hbc
            -- Equal ends would put the middle step on a par with both.
            have hsu : s ≠ u := fun hsu => hst (Step.le_antisymm hab (hsu ▸ hbc))
            rw [stepsLe, if_neg hsu]
            exact Step.le_trans hab hbc

variable {p q r : Path}

theorem le_total (p q : Path) : p.le q || q.le p := stepsLe_total p.steps q.steps

theorem le_trans (hpq : p.le q) (hqr : q.le r) : p.le r := stepsLe_trans hpq hqr

theorem le_of_steps_eq (h : p.steps = q.steps) : p.le q := by
  rw [le, h]
  exact stepsLe_refl q.steps

theorem steps_eq_of_le (hpq : p.le q) (hqp : q.le p) : p.steps = q.steps :=
  stepsLe_antisymm hpq hqp

end Path

end SymbolTable
