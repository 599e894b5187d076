import Mathlib.Data.List.Forall2
import Mathlib.Data.List.Infix
import SymbolTable.Declaration.Basic
import SymbolTable.Proofs.Tree.Segments

/-!
# Signatures tell parameter lists apart

A signature joins the types of the parameters by commas, and a type may hold commas of its own. As
long as these stand between angle brackets, the commas between the parameters are the ones at depth
zero, and the signature determines the list of types.
-/

namespace SymbolTable

namespace Text

/-- How many angle brackets are open at the end of a text. -/
def depth (s : List Char) : Int := s.count '<' - s.count '>'

theorem depth_append (s s' : List Char) : depth (s ++ s') = depth s + depth s' := by
  simp only [depth, List.count_append]
  omega

/-- As many angle brackets close as open, and every comma stands where one is open. -/
structure IsNested (s : List Char) : Prop where
  closed : depth s = 0
  commas : ∀ front, front ++ [','] <+: s → 0 < depth front

instance (s : List Char) : Decidable (IsNested s) :=
  decidable_of_iff (depth s = 0 ∧ ∀ front ∈ s.inits, front ++ [','] <+: s → 0 < depth front)
    ⟨fun ⟨hclosed, hcommas⟩ => ⟨hclosed, fun front hfront => hcommas front
        (List.mem_inits _ _ |>.2 ((List.prefix_append _ _).trans hfront)) hfront⟩,
      fun h => ⟨h.closed, fun front _ => h.commas front⟩⟩

variable {s s' rest rest' : List Char}

/-- A comma behind a nested text is at depth zero, so no longer nested text starts like that. -/
theorem IsNested.not_surplus (hs : IsNested s) : ¬ IsNested (s ++ ',' :: rest) := by
  intro h
  have hopen := h.commas s ⟨rest, by simp⟩
  rw [hs.closed] at hopen
  exact Int.lt_irrefl 0 hopen

/-- A surplus of one text over the other would start with the comma behind the shorter one. -/
theorem IsNested.surplus_eq_nil {surplus : List Char} {more : List (List Char)} (hs : IsNested s)
    (hs' : IsNested (s ++ surplus))
    (h : Tree.afterSegment [','] more = surplus ++ rest) : surplus = [] := by
  cases surplus with
  | nil => rfl
  | cons c surplus =>
    obtain rfl := List.mem_singleton.1 (Tree.mem_delimiter_of_afterSegment (by simp) h)
    exact absurd hs' hs.not_surplus

theorem IsNested.eq_of_append_eq {more more' : List (List Char)} (hs : IsNested s)
    (hs' : IsNested s')
    (h : s ++ Tree.afterSegment [','] more = s' ++ Tree.afterSegment [','] more') : s = s' := by
  rcases List.append_eq_append_iff.1 h with ⟨surplus, rfl, hsplit⟩ | ⟨surplus, rfl, hsplit⟩
  · rw [hs.surplus_eq_nil hs' hsplit, List.append_nil]
  · rw [hs'.surplus_eq_nil hs hsplit, List.append_nil]

theorem intercalate_eq_nil_iff {items : List (List Char)} (h : ∀ s ∈ items, s ≠ []) :
    [','].intercalate items = [] ↔ items = [] := by
  cases items with
  | nil => simp
  | cons s items => simp [Tree.intercalate_cons_eq, h s List.mem_cons_self]

/-- Items that are nested and not empty are determined by the text that joins them by commas. -/
theorem intercalate_comma_inj {items items' : List (List Char)}
    (h : ∀ s ∈ items, s ≠ [] ∧ IsNested s) (h' : ∀ s ∈ items', s ≠ [] ∧ IsNested s) :
    [','].intercalate items = [','].intercalate items' ↔ items = items' := by
  refine ⟨fun hjoin => ?_, fun heq => heq ▸ rfl⟩
  have hnil : items = [] ↔ items' = [] := by
    rw [← intercalate_eq_nil_iff fun s hs => (h s hs).1, hjoin,
      intercalate_eq_nil_iff fun s hs => (h' s hs).1]
  by_cases hitems : items = []
  · rw [hitems, hnil.1 hitems]
  · exact Tree.intercalate_inj (List.cons_ne_nil _ _)
      (fun x y more more' hx hy => IsNested.eq_of_append_eq hx hy) hitems (mt hnil.2 hitems)
      (fun s hs => (h s hs).2) (fun s hs => (h' s hs).2) hjoin

/-! ## Variadic types -/

theorem prefix_of_concat_prefix_concat {c d : Char} {front : List Char} (hne : c ≠ d)
    (h : front ++ [c] <+: s ++ [d]) : front ++ [c] <+: s := by
  rcases List.prefix_concat_iff.1 h with heq | hprefix
  · exact absurd (List.append_inj_right' heq rfl) (by simpa using hne)
  · exact hprefix

/-- Dots at the end change nothing about brackets and commas. -/
theorem IsNested.dots (h : IsNested s) : IsNested (s ++ "...".toList) where
  closed := by rw [depth_append, h.closed]; decide
  commas front hfront := by
    have hdots : s ++ "...".toList = s ++ ['.'] ++ ['.'] ++ ['.'] := by simp
    rw [hdots] at hfront
    refine h.commas front ?_
    iterate 3 replace hfront := prefix_of_concat_prefix_concat (by decide) hfront
    exact hfront

end Text

/-! ## Parameter lists -/

namespace ParameterDecl

/-- The type of a parameter without blanks. -/
def squeezedType (p : ParameterDecl) : List Char := Text.squeeze p.declaredType.toList

/-- A parameter type as it is written in programs: its text is not empty, its angle brackets are
balanced with all commas between them, and it has no ellipsis of its own. -/
structure IsPlain (p : ParameterDecl) : Prop where
  ne_nil : p.squeezedType ≠ []
  nested : Text.IsNested p.squeezedType
  no_dots : ¬ "...".toList <:+: p.squeezedType

instance (p : ParameterDecl) : Decidable p.IsPlain :=
  decidable_of_iff (p.squeezedType ≠ [] ∧ Text.IsNested p.squeezedType ∧
      ¬ "...".toList <:+: p.squeezedType)
    ⟨fun ⟨h, h', h''⟩ => ⟨h, h', h''⟩, fun h => ⟨h.ne_nil, h.nested, h.no_dots⟩⟩

/-- The same type up to blanks, and both or neither variadic. -/
def SameType (p q : ParameterDecl) : Prop :=
  p.squeezedType = q.squeezedType ∧ p.variadic = q.variadic

instance (p q : ParameterDecl) : Decidable (p.SameType q) := inferInstanceAs (Decidable (_ ∧ _))

variable {p q : ParameterDecl}

theorem signatureType_eq (p : ParameterDecl) :
    p.signatureType = p.squeezedType ++ if p.variadic then "...".toList else [] := rfl

theorem IsPlain.signatureType (h : p.IsPlain) :
    p.signatureType ≠ [] ∧ Text.IsNested p.signatureType := by
  rw [signatureType_eq]
  split
  · exact ⟨by simp, h.nested.dots⟩
  · rw [List.append_nil]
    exact ⟨h.ne_nil, h.nested⟩

theorem IsPlain.signatureType_eq_iff (hp : p.IsPlain) (hq : q.IsPlain) :
    p.signatureType = q.signatureType ↔ p.SameType q := by
  rw [signatureType_eq, signatureType_eq, SameType]
  cases p.variadic <;> cases q.variadic
  · simp
  · refine iff_of_false (fun h => hp.no_dots ?_) (by simp)
    rw [if_neg Bool.false_ne_true, List.append_nil, if_pos rfl] at h
    rw [h]
    exact (List.suffix_append _ _).isInfix
  · refine iff_of_false (fun h => hq.no_dots ?_) (by simp)
    rw [if_neg Bool.false_ne_true, List.append_nil, if_pos rfl] at h
    rw [← h]
    exact (List.suffix_append _ _).isInfix
  · simp

end ParameterDecl

namespace CallableHeader

/-- All parameter types are plain. -/
def IsPlain (c : CallableHeader) : Prop := ∀ p ∈ c.parameters, p.IsPlain

instance (c : CallableHeader) : Decidable c.IsPlain := inferInstanceAs (Decidable (∀ _ ∈ _, _))

/-- As many parameters, and the same type at each position. -/
def SameParameters (c d : CallableHeader) : Prop :=
  List.Forall₂ ParameterDecl.SameType c.parameters d.parameters

variable {c d : CallableHeader}

theorem signature_eq_iff (hc : c.IsPlain) (hd : d.IsPlain) :
    c.signature = d.signature ↔ c.SameParameters d := by
  have htypes : c.signature = d.signature ↔
      c.parameters.map ParameterDecl.signatureType =
        d.parameters.map ParameterDecl.signatureType := by
    rw [← Text.intercalate_comma_inj (List.forall_mem_map.2 fun p hp => (hc p hp).signatureType)
      (List.forall_mem_map.2 fun p hp => (hd p hp).signatureType), signature, signature,
      String.ofList_inj]
    simp
  rw [htypes, SameParameters, ← List.forall₂_eq_eq_eq, List.forall₂_map_left_iff,
    List.forall₂_map_right_iff, List.forall₂_iff_zip, List.forall₂_iff_zip]
  refine and_congr_right fun _ => forall₂_congr fun p q => forall_congr' fun hpq => ?_
  obtain ⟨hp, hq⟩ := List.of_mem_zip hpq
  exact (hc p hp).signatureType_eq_iff (hd q hq)

end CallableHeader

end SymbolTable
