import Mathlib.Data.List.DropRight
import SymbolTable.Proofs.Files.PathSteps
import SymbolTable.Text.Blank
import SymbolTable.Text.Replace

/-!
# Words and replacements in parts of a text

A text can be split at a blank for its words, and behind a character that a pattern does not have
for the replacement of the pattern. The last word is the run of characters behind the last blank,
unless the text ends in a blank.
-/

namespace SymbolTable

namespace Text

/-! ## The run at the end of a text -/

/-- The characters behind the last blank. -/
def lastRun (s : List Char) : List Char := s.rtakeWhile fun c => !isBlank c

def IsBlankText (s : List Char) : Prop := ∀ c ∈ s, isBlank c = true

def IsSolid (s : List Char) : Prop := ∀ c ∈ s, isBlank c = false

instance (s : List Char) : Decidable (IsBlankText s) := List.decidableBAll _ s

instance (s : List Char) : Decidable (IsSolid s) := List.decidableBAll _ s

theorem lastRun_append_of_isSolid {s t : List Char} (h : IsSolid t) :
    lastRun (s ++ t) = lastRun s ++ t := by
  induction t using List.reverseRecOn generalizing s with
  | nil => simp
  | append_singleton t c ih =>
    have hc : isBlank c = false := h c (by simp)
    have ht : IsSolid t := fun d hd => h d (by simp [hd])
    rw [← List.append_assoc, lastRun, List.rtakeWhile_concat_pos _ _ _ (by simp [hc])]
    rw [← List.append_assoc, ← ih ht]
    rfl

theorem lastRun_append_of_isBlankText {s t : List Char} (h : IsBlankText t) :
    lastRun (s ++ t) = if t = [] then lastRun s else [] := by
  cases t using List.reverseRecOn with
  | nil => simp
  | append_singleton t c =>
    have hc : isBlank c = true := h c (by simp)
    rw [← List.append_assoc, lastRun, List.rtakeWhile_concat_neg _ _ _ (by simp [hc])]
    simp

theorem isSolid_lastRun (s : List Char) : IsSolid (lastRun s) := by
  intro c hc
  have := List.mem_rtakeWhile_imp hc
  simpa using this

theorem lastRun_eq_nil_iff {s : List Char} :
    lastRun s = [] ↔ ∀ c ∈ s.getLast?, isBlank c = true := by
  cases s using List.reverseRecOn with
  | nil => simp [lastRun]
  | append_singleton s c =>
    by_cases hc : isBlank c = true <;> simp [lastRun, hc]

/-! ## The last word of a text -/

def lastWord (s : List Char) : List Char := (words s).getLastD []

theorem words_append_blank {c : Char} (hc : isBlank c = true) (s t : List Char) :
    words (s ++ c :: t) = words s ++ words t := by
  rw [words, pieces_append_cut hc, List.filter_append]
  rfl

theorem words_of_isSolid {s : List Char} (h : IsSolid s) (hs : s ≠ []) : words s = [s] := by
  rw [words, pieces_of_uncut h]
  simp [hs]

theorem words_of_isBlankText {s : List Char} (h : IsBlankText s) : words s = [] := by
  induction s with
  | nil => rfl
  | cons c s ih =>
    have hrest : IsBlankText s := fun d hd => h d (List.mem_cons_of_mem c hd)
    exact (words_append_blank (h c List.mem_cons_self) [] s).trans (ih hrest)

theorem words_append_of_isBlankText {s t : List Char} (h : IsBlankText t) :
    words (s ++ t) = words s := by
  cases t with
  | nil => rw [List.append_nil]
  | cons c t =>
    rw [words_append_blank (h c List.mem_cons_self),
      words_of_isBlankText fun d hd => h d (List.mem_cons_of_mem c hd), List.append_nil]

/-- A text is the run at its end, with a blank in front of it unless the run is all there is. -/
theorem eq_append_lastRun (s : List Char) :
    s = lastRun s ∨ ∃ front c, isBlank c = true ∧ s = front ++ c :: lastRun s := by
  induction s using List.reverseRecOn with
  | nil => exact .inl rfl
  | append_singleton s d ih =>
    by_cases hd : isBlank d = true
    · refine .inr ⟨s, d, hd, ?_⟩
      rw [lastRun_append_of_isBlankText (by simpa [IsBlankText] using hd), if_neg (by simp)]
    · have hrun : lastRun (s ++ [d]) = lastRun s ++ [d] :=
        lastRun_append_of_isSolid (by simpa [IsSolid] using hd)
      rw [hrun]
      refine ih.imp (fun h => congrArg (· ++ [d]) h) ?_
      rintro ⟨front, c, hc, h⟩
      exact ⟨front, c, hc, by rw [← List.cons_append, ← List.append_assoc, ← h]⟩

theorem lastWord_eq_lastRun {s : List Char} (h : lastRun s ≠ []) : lastWord s = lastRun s := by
  have hword : words (lastRun s) = [lastRun s] := words_of_isSolid (isSolid_lastRun s) h
  have hwords : ∃ front, words s = front ++ [lastRun s] := by
    rcases eq_append_lastRun s with heq | ⟨front, c, hc, heq⟩
    · exact ⟨[], (congrArg words heq).trans hword⟩
    · exact ⟨words front, by rw [heq, words_append_blank hc, ← heq, hword]⟩
  obtain ⟨front, hfront⟩ := hwords
  rw [lastWord, hfront, List.getLastD_concat]

/-! ## Replacing in parts of a text -/

section Replacing

variable {pattern replacement : List Char} {c : Char}

theorem isPrefixOf_append_cons (hc : c ∉ pattern) (front back : List Char) :
    pattern.isPrefixOf (front ++ c :: back) = pattern.isPrefixOf front := by
  rw [Bool.eq_iff_iff, List.isPrefixOf_iff_prefix, List.isPrefixOf_iff_prefix]
  refine ⟨fun h => ?_, fun h => h.trans (List.prefix_append _ _)⟩
  have hthrough : front ++ [c] <+: front ++ c :: back := ⟨back, by simp⟩
  rcases List.prefix_or_prefix_of_prefix h hthrough with h | h
  · rcases List.prefix_concat_iff.1 h with rfl | h
    · simp at hc
    · exact h
  · exact absurd (h.subset (by simp)) hc

/-- An occurrence of the pattern does not reach over a character that the pattern does not have. -/
theorem replaceFrom_append_cons (hp : pattern ≠ []) (hc : c ∉ pattern) {skip : Nat}
    (front back : List Char) (hskip : skip ≤ front.length) :
    replaceFrom pattern replacement skip (front ++ c :: back) =
      replaceFrom pattern replacement skip front ++ c :: replace pattern replacement back := by
  induction front generalizing skip with
  | nil =>
    obtain rfl := Nat.le_zero.1 hskip
    have hno : pattern.isPrefixOf (c :: back) = false := by
      have h := isPrefixOf_append_cons hc [] back
      rw [List.nil_append] at h
      rw [h]
      cases pattern with
      | nil => exact absurd rfl hp
      | cons d pattern => rfl
    simp only [List.nil_append, replaceFrom, hno, Bool.false_eq_true, if_false, replace]
  | cons d front ih =>
    cases skip with
    | succ skip =>
      rw [List.cons_append, replaceFrom, replaceFrom]
      exact ih (Nat.le_of_succ_le_succ hskip)
    | zero =>
      rw [List.cons_append, replaceFrom, replaceFrom, ← List.cons_append,
        isPrefixOf_append_cons hc]
      split
      · next h =>
        have hlength := (List.isPrefixOf_iff_prefix.1 h).length_le
        rw [List.length_cons] at hlength
        rw [ih (by omega), List.append_assoc]
      · rw [ih (Nat.zero_le _), List.cons_append]

theorem replace_append_cons (hp : pattern ≠ []) (hc : c ∉ pattern) (front back : List Char) :
    replace pattern replacement (front ++ c :: back) =
      replace pattern replacement front ++ c :: replace pattern replacement back :=
  replaceFrom_append_cons hp hc front back (Nat.zero_le _)

/-- What ends in a character that the pattern does not have is replaced on its own. -/
theorem replace_append (hp : pattern ≠ []) {front : List Char}
    (hfront : ∀ c ∈ front.getLast?, c ∉ pattern) (back : List Char) :
    replace pattern replacement (front ++ back) =
      replace pattern replacement front ++ replace pattern replacement back := by
  cases front using List.reverseRecOn with
  | nil => rfl
  | append_singleton front c =>
    have hc : c ∉ pattern := hfront c (by simp)
    rw [List.append_assoc, List.singleton_append, replace_append_cons hp hc,
      replace_append_cons hp hc front [], List.append_assoc]
    rfl

theorem getLast?_replace (hp : pattern ≠ []) {front : List Char}
    (hfront : ∀ c ∈ front.getLast?, c ∉ pattern) :
    (replace pattern replacement front).getLast? = front.getLast? := by
  cases front using List.reverseRecOn with
  | nil => rfl
  | append_singleton front c =>
    have hc : c ∉ pattern := hfront c (by simp)
    rw [replace_append_cons hp hc front []]
    simp [replace, replaceFrom]

theorem replace_of_disjoint (hp : pattern ≠ []) {front : List Char} (h : ∀ c ∈ front, c ∉ pattern) :
    replace pattern replacement front = front := by
  induction front with
  | nil => rfl
  | cons c front ih =>
    have hc : c ∉ pattern := h c List.mem_cons_self
    rw [← List.singleton_append, replace_append hp (by simpa using hc),
      ih fun d hd => h d (List.mem_cons_of_mem c hd)]
    congr 1
    exact replace_append_cons hp hc [] []

end Replacing

end Text

end SymbolTable
