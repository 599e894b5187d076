import Mathlib.Data.List.Basic
import SymbolTable.Files.Path

/-!
# The steps of a path below a directory

Behind the path of a directory a name adds one step and changes none, whether or not the path of the
directory ends in a separator. So two entries of a directory never have the same path.
-/

namespace SymbolTable

namespace Text

variable {cut : Char → Bool} {c : Char}

theorem pieces_append_cut (hc : cut c = true) (front back : List Char) :
    pieces cut (front ++ c :: back) = pieces cut front ++ pieces cut back := by
  induction front with
  | nil => simp [pieces, hc]
  | cons d front ih =>
    rw [List.cons_append, pieces, pieces, ih]
    by_cases hd : cut d = true
    · rw [if_pos hd, if_pos hd, List.cons_append]
    · rw [if_neg hd, if_neg hd]
      obtain ⟨piece, more, hp⟩ := List.exists_cons_of_ne_nil (pieces_ne_nil cut front)
      rw [hp]
      rfl

theorem pieces_of_uncut {s : List Char} (h : ∀ c ∈ s, cut c = false) : pieces cut s = [s] := by
  induction s with
  | nil => rfl
  | cons c s ih =>
    rw [List.forall_mem_cons] at h
    rw [pieces, if_neg (by simp [h.1]), ih h.2]

end Text

namespace Path

/-- The names that an entry of a directory can have. -/
structure IsName (name : String) : Prop where
  ne_empty : name ≠ ""
  ne_here : name ≠ "."
  ne_up : name ≠ ".."
  no_separator : '/' ∉ name.toList

instance (name : String) : Decidable (IsName name) :=
  decidable_of_iff (name ≠ "" ∧ name ≠ "." ∧ name ≠ ".." ∧ '/' ∉ name.toList)
    ⟨fun ⟨h, h', h'', h'''⟩ => ⟨h, h', h'', h'''⟩,
      fun h => ⟨h.ne_empty, h.ne_here, h.ne_up, h.no_separator⟩⟩

variable {p : Path} {name : String}

theorem IsName.stepOf (h : IsName name) : Path.stepOf name = some (.entry name) := by
  unfold Path.stepOf
  split
  · exact absurd rfl h.ne_empty
  · exact absurd rfl h.ne_here
  · exact absurd rfl h.ne_up
  · rfl

theorem IsName.pieces (h : IsName name) : (Path.mk name).pieces = [name] := by
  have huncut : ∀ c ∈ name.toList, decide (c = '/') = false := fun c hc =>
    decide_eq_false fun hcs => h.no_separator (hcs ▸ hc)
  rw [Path.pieces, Text.pieces_of_uncut huncut]
  simp

theorem IsName.not_isAbsolute (h : IsName name) : (Path.mk name).isAbsolute = false := by
  refine decide_eq_false fun hhead => ?_
  obtain ⟨rest, hrest⟩ := List.head?_eq_some_iff.1 hhead
  exact h.no_separator (by simp [hrest])

theorem join_of_empty (h : IsName name) (hp : p.text = "") : p.join ⟨name⟩ = ⟨name⟩ := by
  simp [join, h.not_isAbsolute, hp]

/-- The name stands behind a separator, which the path of the directory may have had already. -/
theorem toList_join (h : IsName name) (hp : p.text ≠ "") :
    ∃ front : List Char, (p.join ⟨name⟩).text.toList = front ++ '/' :: name.toList ∧
      (p.text.toList = front ∨ p.text.toList = front ++ ['/']) := by
  have hne : p.text.toList ≠ [] := by simpa using hp
  rw [join, h.not_isAbsolute, if_neg Bool.false_ne_true, List.getLast?_eq_some_getLast hne]
  have hlast := List.dropLast_concat_getLast hne
  by_cases hsep : p.text.toList.getLast hne = '/'
  · rw [hsep] at hlast ⊢
    refine ⟨p.text.toList.dropLast, ?_, .inr hlast.symm⟩
    rw [List.append_cons, hlast]
    exact String.toList_append
  · refine ⟨p.text.toList, ?_, .inl rfl⟩
    split
    · next hnone => cases hnone
    · next hslash => exact absurd (Option.some.inj hslash) hsep
    · simp

theorem isAbsolute_join (h : IsName name) (hp : p.text ≠ "") :
    (p.join ⟨name⟩).isAbsolute = p.isAbsolute := by
  obtain ⟨front, hjoin, htext⟩ := toList_join h hp
  have hne : p.text.toList ≠ [] := by simpa using hp
  have hhead : (p.join ⟨name⟩).text.toList.head? = p.text.toList.head? := by
    rw [hjoin]
    rcases htext with htext | htext
    · rw [htext] at hne ⊢
      exact List.head?_append_of_ne_nil _ hne
    · rw [htext, List.head?_append, List.head?_append]
      rfl
  rw [isAbsolute, isAbsolute, hhead]

/-- The pieces of the directory, up to an empty one at the end, and then the name. -/
theorem pieces_join (h : IsName name) (hp : p.text ≠ "") :
    ∃ front : List String, front ≠ [] ∧ (p.join ⟨name⟩).pieces = front ++ [name] ∧
      (p.pieces = front ∨ p.pieces = front ++ [""]) := by
  obtain ⟨front, hjoin, htext⟩ := toList_join h hp
  have hname : (Text.pieces (· = '/') name.toList).map String.ofList = [name] := h.pieces
  refine ⟨(Text.pieces (· = '/') front).map String.ofList, ?_, ?_, ?_⟩
  · exact mt List.map_eq_nil_iff.1 (Text.pieces_ne_nil _ front)
  · rw [Path.pieces, hjoin, Text.pieces_append_cut (by decide), List.map_append, hname]
  · rcases htext with htext | htext
    · exact .inl (by rw [Path.pieces, htext])
    · exact .inr (by rw [Path.pieces, htext, Text.pieces_append_cut (by decide), List.map_append]; rfl)

theorem steps_join (h : IsName name) : (p.join ⟨name⟩).steps = p.steps ++ [.entry name] := by
  by_cases hp : p.text = ""
  · obtain rfl : p = ⟨""⟩ := by rw [← hp]
    rw [join_of_empty h hp, steps, h.not_isAbsolute, h.pieces]
    simp [h.stepOf, h.ne_here, show steps ⟨""⟩ = [] from rfl]
  · obtain ⟨front, hne, hjoin, hpieces⟩ := pieces_join h hp
    have hname : [name].filterMap Path.stepOf = [.entry name] := by simp [h.stepOf]
    have hends : p.pieces.head? = front.head? ∧
        p.pieces.filterMap Path.stepOf = front.filterMap Path.stepOf := by
      rcases hpieces with hpieces | hpieces
      · exact ⟨by rw [hpieces], by rw [hpieces]⟩
      · rw [hpieces, List.head?_append_of_ne_nil _ hne, List.filterMap_append]
        exact ⟨rfl, List.append_nil _⟩
    rw [steps, steps, isAbsolute_join h hp, hjoin, List.head?_append_of_ne_nil _ hne, hends.1,
      hends.2, List.filterMap_append, hname, List.append_assoc]

/-- The path that names lead to from a directory. -/
def below (p : Path) (names : List String) : Path := names.foldl (fun q name => q.join ⟨name⟩) p

end Path

end SymbolTable
