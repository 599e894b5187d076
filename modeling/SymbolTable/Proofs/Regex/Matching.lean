import SymbolTable.Regex.Basic

/-!
# The matcher decides the language

The matcher keeps a list of expressions that together have the language of what may still follow.
One character takes this list to the list of the partial derivatives, so after the whole text it is
enough to ask whether one of them takes the empty text.
-/

namespace SymbolTable

namespace CharClass

theorem contains_single {c d : Char} : (single c).contains d = true ↔ d = c := by
  have hle : c ≤ d ∧ d ≤ c ↔ d = c :=
    ⟨fun h => Char.le_antisymm h.2 h.1, fun h => h ▸ ⟨Char.le_refl _, Char.le_refl _⟩⟩
  simpa [single, contains] using hle

theorem contains_except {c d : Char} : (except c).contains d = true ↔ d ≠ c := by
  have hnot : (except c).contains d = !(single c).contains d := by simp [single, except, contains]
  rw [hnot, Bool.not_eq_true', ← Bool.not_eq_true, contains_single]

end CharClass

namespace Regex

variable {a b r : Regex} {k : CharClass} {c : Char} {s t : List Char}

/-! ## Membership, by the form of the expression -/

@[simp] theorem not_matches_never : ¬ Matches never s := nofun

@[simp] theorem matches_empty_iff : Matches empty s ↔ s = [] :=
  ⟨fun | .empty => rfl, fun h => h ▸ .empty⟩

theorem matches_one_iff : Matches (one k) s ↔ ∃ c, k.contains c = true ∧ s = [c] := by
  constructor
  · rintro ⟨⟩
    exact ⟨_, ‹_›, rfl⟩
  · rintro ⟨c, hc, rfl⟩
    exact .one hc

theorem matches_seq_iff :
    Matches (seq a b) s ↔ ∃ front back, s = front ++ back ∧ Matches a front ∧ Matches b back := by
  constructor
  · rintro ⟨⟩
    exact ⟨_, _, rfl, ‹_›, ‹_›⟩
  · rintro ⟨front, back, rfl, ha, hb⟩
    exact .seq ha hb

theorem matches_either_iff : Matches (either a b) s ↔ Matches a s ∨ Matches b s := by
  constructor
  · rintro (_ | _)
    · exact .inl ‹_›
    · exact .inr ‹_›
  · rintro (h | h)
    · exact .left h
    · exact .right h

/-- Rounds that take nothing can be left out, so the first character belongs to the first round. -/
theorem matches_star_cons_iff :
    Matches (star a) (c :: s) ↔
      ∃ front back, s = front ++ back ∧ Matches a (c :: front) ∧ Matches (star a) back := by
  constructor
  · intro h
    generalize hr : star a = r, ht : c :: s = t at h
    induction h with
    | empty | one | seq | left | right => cases hr
    | done => cases ht
    | @more a' front back ha hs _ ih =>
      cases hr
      cases front with
      | nil => exact ih rfl ht
      | cons d front =>
        cases ht
        exact ⟨front, back, rfl, ha, hs⟩
  · rintro ⟨front, back, rfl, ha, hs⟩
    exact .more ha hs

theorem matches_char_iff : Matches (char c) s ↔ s = [c] := by
  simp [char, matches_one_iff, CharClass.contains_single]

/-- Rounds of all characters but one take the texts without that character. -/
theorem matches_star_except_iff : Matches (star (one (.except c))) s ↔ c ∉ s := by
  induction s with
  | nil => simpa using Matches.done
  | cons d s ih =>
    have hcons : Matches (star (one (.except c))) (d :: s) ↔
        d ≠ c ∧ Matches (star (one (.except c))) s := by
      simp only [matches_star_cons_iff, matches_one_iff, CharClass.contains_except]
      constructor
      · rintro ⟨front, back, rfl, ⟨d', hd, hfront⟩, hback⟩
        cases hfront
        exact ⟨hd, hback⟩
      · rintro ⟨hd, hs⟩
        exact ⟨[], s, rfl, ⟨d, hd, rfl⟩, hs⟩
    rw [hcons, ih, List.mem_cons, not_or, ne_comm]

theorem matches_all_cons_iff {rs : List Regex} :
    Matches (all (a :: rs)) s ↔ ∃ front back, s = front ++ back ∧ Matches a front ∧
      Matches (all rs) back := matches_seq_iff

theorem nullable_iff : r.nullable = true ↔ Matches r [] := by
  induction r with
  | never => simp [nullable]
  | empty => simp [nullable]
  | one k => simp [nullable, matches_one_iff]
  | seq a b iha ihb =>
    simp only [nullable, Bool.and_eq_true, iha, ihb, matches_seq_iff]
    constructor
    · rintro ⟨ha, hb⟩
      exact ⟨[], [], rfl, ha, hb⟩
    · rintro ⟨front, back, hs, ha, hb⟩
      obtain ⟨rfl, rfl⟩ := List.append_eq_nil_iff.1 hs.symm
      exact ⟨ha, hb⟩
  | either a b iha ihb => simp [nullable, iha, ihb, matches_either_iff]
  | star a => simpa [nullable] using Matches.done

theorem matches_andThen_iff : Matches (andThen a b) s ↔ Matches (seq a b) s := by
  rw [andThen]
  split
  · next ha =>
    simp only [ha, matches_seq_iff, matches_empty_iff]
    constructor
    · intro hb
      exact ⟨[], s, rfl, rfl, hb⟩
    · rintro ⟨_, back, rfl, rfl, hb⟩
      exact hb
  · rfl

theorem exists_mem_map_andThen_iff {rs : List Regex} :
    (∃ q ∈ rs.map (andThen · b), Matches q s) ↔
      ∃ front back, s = front ++ back ∧ (∃ q ∈ rs, Matches q front) ∧ Matches b back := by
  constructor
  · rintro ⟨q, hq, hm⟩
    obtain ⟨a, ha, rfl⟩ := List.mem_map.1 hq
    obtain ⟨front, back, hs, hfront, hback⟩ := matches_seq_iff.1 (matches_andThen_iff.1 hm)
    exact ⟨front, back, hs, ⟨a, ha, hfront⟩, hback⟩
  · rintro ⟨front, back, rfl, ⟨a, ha, hfront⟩, hback⟩
    exact ⟨_, List.mem_map_of_mem ha, matches_andThen_iff.2 (.seq hfront hback)⟩

/-! ## One character -/

/-- The languages of the partial derivatives are together the language of the rests. -/
theorem exists_mem_partials_iff :
    (∃ q ∈ r.partials c, Matches q s) ↔ Matches r (c :: s) := by
  induction r generalizing s with
  | never => simp [partials]
  | empty => simp [partials]
  | one k =>
    by_cases hk : k.contains c = true
    · have hc : (∃ d, k.contains d = true ∧ c = d ∧ s = []) ↔ s = [] :=
        ⟨fun ⟨_, _, _, hs⟩ => hs, fun hs => ⟨c, hk, rfl, hs⟩⟩
      simp [partials, hk, matches_one_iff, hc]
    · have hc : ¬ ∃ d, k.contains d = true ∧ c = d ∧ s = [] := fun ⟨_, hd, hcd, _⟩ =>
        hk (hcd ▸ hd)
      simp [partials, hk, matches_one_iff, hc]
  | either a b iha ihb => simp [partials, or_and_right, exists_or, iha, ihb, matches_either_iff]
  | seq a b iha ihb =>
    simp only [partials, List.mem_append, or_and_right, exists_or, exists_mem_map_andThen_iff, iha,
      matches_seq_iff]
    constructor
    · rintro (⟨front, back, rfl, ha, hb⟩ | ⟨q, hq, hm⟩)
      · exact ⟨c :: front, back, rfl, ha, hb⟩
      · split at hq
        · next hn => exact ⟨[], c :: s, rfl, nullable_iff.1 hn, ihb.1 ⟨q, hq, hm⟩⟩
        · cases hq
    · rintro ⟨_ | ⟨d, front⟩, back, hs, ha, hb⟩
      · -- The first part takes nothing, so it is the second one that takes the character.
        obtain rfl : c :: s = back := hs
        rw [if_pos (nullable_iff.2 ha)]
        exact .inr (ihb.2 hb)
      · cases hs
        exact .inl ⟨front, back, rfl, ha, hb⟩
  | star a iha => simp only [partials, exists_mem_map_andThen_iff, iha, matches_star_cons_iff]

theorem exists_mem_step_iff {states : List Regex} :
    (∃ q ∈ step states c, Matches q s) ↔ ∃ q ∈ states, Matches q (c :: s) := by
  simp only [step, List.mem_eraseDups, List.mem_flatMap, ← exists_mem_partials_iff]
  constructor
  · rintro ⟨q, ⟨r, hr, hq⟩, hm⟩
    exact ⟨r, hr, q, hq, hm⟩
  · rintro ⟨r, hr, q, hq, hm⟩
    exact ⟨q, ⟨r, hr, hq⟩, hm⟩

/-! ## The whole text -/

theorem any_nullable_foldl_step_iff {states : List Regex} :
    (s.foldl step states).any nullable = true ↔ ∃ q ∈ states, Matches q s := by
  induction s generalizing states with
  | nil => simp [nullable_iff]
  | cons c s ih => rw [List.foldl_cons, ih, exists_mem_step_iff]

theorem accepts_iff : r.accepts s = true ↔ Matches r s := by
  rw [accepts, any_nullable_foldl_step_iff]
  simp

end Regex

end SymbolTable
