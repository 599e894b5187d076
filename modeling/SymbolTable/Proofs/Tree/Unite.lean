import SymbolTable.Component.Basic

/-!
# Ordered union of lists

`unite known added` appends the elements of `added` that are missing, in order, and never moves what
is known. Attribute lists and lists of siblings both grow this way.
-/

namespace SymbolTable

variable {α : Type} [DecidableEq α]

def addAbsent (known : List α) (a : α) : List α := if a ∈ known then known else known ++ [a]

def unite (known added : List α) : List α := added.foldl addAbsent known

theorem mem_addAbsent {known : List α} {a b : α} :
    b ∈ addAbsent known a ↔ b ∈ known ∨ b = a := by
  unfold addAbsent
  split
  · constructor
    · exact Or.inl
    · rintro (h | rfl) <;> assumption
  · simp

theorem addAbsent_of_mem {known : List α} {a : α} (h : a ∈ known) :
    addAbsent known a = known := if_pos h

theorem prefix_addAbsent (known : List α) (a : α) : known <+: addAbsent known a := by
  unfold addAbsent
  split
  · exact List.prefix_rfl
  · exact List.prefix_append known [a]

theorem nodup_addAbsent {known : List α} (h : known.Nodup) (a : α) :
    (addAbsent known a).Nodup := by
  unfold addAbsent
  split
  · exact h
  · next ha =>
    rw [List.nodup_append]
    refine ⟨h, by simp, ?_⟩
    intro b hb c hc
    rw [List.mem_singleton] at hc
    rintro rfl
    exact ha (hc ▸ hb)

@[simp] theorem unite_nil (known : List α) : unite known [] = known := rfl

@[simp] theorem unite_cons (known : List α) (a : α) (added : List α) :
    unite known (a :: added) = unite (addAbsent known a) added := rfl

theorem unite_append (known as bs : List α) :
    unite known (as ++ bs) = unite (unite known as) bs := List.foldl_append

theorem mem_unite {known added : List α} {b : α} :
    b ∈ unite known added ↔ b ∈ known ∨ b ∈ added := by
  induction added generalizing known with
  | nil => simp
  | cons a added ih => rw [unite_cons, ih, mem_addAbsent, List.mem_cons, or_assoc]

theorem prefix_unite (known added : List α) : known <+: unite known added := by
  induction added generalizing known with
  | nil => exact List.prefix_rfl
  | cons a added ih => exact (prefix_addAbsent known a).trans (ih _)

theorem nodup_unite {known : List α} (h : known.Nodup) (added : List α) :
    (unite known added).Nodup := by
  induction added generalizing known with
  | nil => exact h
  | cons a added ih => exact ih (nodup_addAbsent h a)

theorem unite_eq_left {known added : List α} (h : ∀ a ∈ added, a ∈ known) :
    unite known added = known := by
  induction added with
  | nil => rfl
  | cons a added ih =>
    rw [unite_cons, addAbsent_of_mem (h a List.mem_cons_self)]
    exact ih fun b hb => h b (List.mem_cons_of_mem a hb)

theorem unite_of_nodup (known : List α) {added : List α} (h : (known ++ added).Nodup) :
    unite known added = known ++ added := by
  induction added generalizing known with
  | nil => simp
  | cons a added ih =>
    have ha : a ∉ known := fun hk =>
      (List.nodup_append.1 h).2.2 a hk a List.mem_cons_self rfl
    rw [unite_cons, addAbsent, if_neg ha, ih _ (by simpa using h)]
    simp

@[simp] theorem unite_self (known : List α) : unite known known = known :=
  unite_eq_left fun _ h => h

/-- What is appended is new, and appended once. -/
theorem exists_unite_eq (known added : List α) :
    ∃ fresh, unite known added = known ++ fresh ∧ fresh.Nodup ∧ ∀ a ∈ fresh, a ∉ known := by
  induction added generalizing known with
  | nil => exact ⟨[], (List.append_nil known).symm, List.nodup_nil, nofun⟩
  | cons a added ih =>
    by_cases ha : a ∈ known
    · rw [unite_cons, addAbsent_of_mem ha]
      exact ih known
    · obtain ⟨fresh, heq, hnodup, hfresh⟩ := ih (known ++ [a])
      rw [unite_cons, addAbsent, if_neg ha, heq]
      refine ⟨a :: fresh, List.append_assoc known [a] fresh, List.nodup_cons.2 ⟨?_, hnodup⟩, ?_⟩
      · exact fun hmem => hfresh a hmem (List.mem_append_right _ (List.mem_singleton_self a))
      · intro b hb
        rcases List.mem_cons.1 hb with rfl | hb
        · exact ha
        · exact fun hknown => hfresh b hb (List.mem_append_left _ hknown)

/-- Unions that begin alike and have the same elements differ at most in their order. -/
theorem perm_unite {known known' added added' : List α} (hknown : known'.Perm known)
    (hmem : ∀ a, a ∈ unite known' added' ↔ a ∈ unite known added) :
    (unite known' added').Perm (unite known added) := by
  obtain ⟨fresh, heq, hnodup, hfresh⟩ := exists_unite_eq known added
  obtain ⟨fresh', heq', hnodup', hfresh'⟩ := exists_unite_eq known' added'
  have hfreshmem : ∀ a, a ∈ fresh' ↔ a ∈ fresh := by
    intro a
    have hboth := hmem a
    rw [heq, heq', List.mem_append, List.mem_append, hknown.mem_iff] at hboth
    constructor
    · intro ha
      exact (hboth.1 (.inr ha)).resolve_left fun hk => hfresh' a ha (hknown.mem_iff.2 hk)
    · intro ha
      exact (hboth.2 (.inr ha)).resolve_left (hfresh a ha)
  rw [heq, heq']
  exact hknown.append ((List.perm_ext_iff_of_nodup hnodup' hnodup).2 hfreshmem)

theorem unite_addAbsent (known as : List α) (b : α) :
    unite known (addAbsent as b) = addAbsent (unite known as) b := by
  by_cases hb : b ∈ as
  · rw [addAbsent_of_mem hb, addAbsent_of_mem (mem_unite.2 (.inr hb))]
  · rw [addAbsent, if_neg hb, unite_append, unite_cons, unite_nil]

theorem unite_assoc (as bs cs : List α) : unite (unite as bs) cs = unite as (unite bs cs) := by
  induction cs generalizing bs with
  | nil => rfl
  | cons c cs ih => rw [unite_cons, unite_cons, ← unite_addAbsent, ih]

theorem filter_unite (known added : List α) (p : α → Bool) :
    (unite known added).filter p = unite (known.filter p) (added.filter p) := by
  induction added generalizing known with
  | nil => rfl
  | cons a added ih =>
    rw [unite_cons, ih]
    by_cases ha : p a
    · rw [List.filter_cons_of_pos ha, unite_cons]
      congr 1
      unfold addAbsent
      by_cases hk : a ∈ known
      · rw [if_pos hk, if_pos (List.mem_filter.2 ⟨hk, ha⟩)]
      · rw [if_neg hk, if_neg fun h => hk (List.mem_filter.1 h).1]
        simp [ha]
    · rw [List.filter_cons_of_neg ha]
      congr 1
      unfold addAbsent
      split
      · rfl
      · simp [ha]

namespace Component

theorem addAttributeIfAbsent_eq (c : Component) (a : Attribute) :
    c.addAttributeIfAbsent a = { c with attributes := addAbsent c.attributes a } := by
  unfold addAttributeIfAbsent addAbsent
  split <;> rfl

theorem uniteAttributes_eq (c : Component) (added : List Attribute) :
    c.uniteAttributes added = { c with attributes := unite c.attributes added } := by
  unfold uniteAttributes
  induction added generalizing c with
  | nil => rfl
  | cons a added ih => rw [List.foldl_cons, ih, addAttributeIfAbsent_eq]; rfl

end Component

end SymbolTable
