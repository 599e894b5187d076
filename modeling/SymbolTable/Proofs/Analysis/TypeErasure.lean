import SymbolTable.Analysis.TypeText
import SymbolTable.Proofs.Declaration.Signature
import SymbolTable.Proofs.Text.Words

/-!
# What erasure keeps of a type text

A type is written as identifiers joined by dots, with type arguments behind any of them, annotations
in front and the marks of arrays and variadic parameters at the end. Erasure takes the arguments and
the marks away and keeps the last word of what is left. That word is the whole dotted name just when
no blank is left beside a dot and the annotations end in one: a blank cuts off all that stands
before.
-/

namespace SymbolTable

namespace TypeText

/-! ## Marks -/

/-- A text without the marks of arrays and variadic parameters. -/
def unmarked (s : List Char) : List Char :=
  Text.replace "...".toList [] (Text.replace "[]".toList [] s)

theorem erase_eq (text : String) :
    erase text = String.ofList (Text.lastWord (unmarked (outsideArguments 0 text.toList))) := rfl

/-- No character of a mark. -/
def IsMarkFree (s : List Char) : Prop := ∀ c ∈ s, c ∉ "[].".toList

variable {s : List Char}

theorem notMem_array {c : Char} (h : c ∉ "[].".toList) : c ∉ "[]".toList := fun hc =>
  h (by simp_all)

theorem notMem_ellipsis {c : Char} (h : c ∉ "[].".toList) : c ∉ "...".toList := fun hc =>
  h (by simp_all)

theorem unmarked_append (h : ∀ c ∈ s.getLast?, c ∉ "[].".toList) (rest : List Char) :
    unmarked (s ++ rest) = unmarked s ++ unmarked rest := by
  have harray : ∀ c ∈ s.getLast?, c ∉ "[]".toList := fun c hc => notMem_array (h c hc)
  rw [unmarked, Text.replace_append (by decide) harray, Text.replace_append (by decide)]
  · rfl
  · rw [Text.getLast?_replace (by decide) harray]
    exact fun c hc => notMem_ellipsis (h c hc)

theorem getLast?_unmarked (h : ∀ c ∈ s.getLast?, c ∉ "[].".toList) :
    (unmarked s).getLast? = s.getLast? := by
  have harray : ∀ c ∈ s.getLast?, c ∉ "[]".toList := fun c hc => notMem_array (h c hc)
  have hlast : (Text.replace "[]".toList [] s).getLast? = s.getLast? :=
    Text.getLast?_replace (by decide) harray
  rw [unmarked, Text.getLast?_replace (by decide), hlast]
  rw [hlast]
  exact fun c hc => notMem_ellipsis (h c hc)

theorem unmarked_of_isMarkFree (h : IsMarkFree s) : unmarked s = s := by
  rw [unmarked, Text.replace_of_disjoint (by decide) fun c hc => notMem_array (h c hc),
    Text.replace_of_disjoint (by decide) fun c hc => notMem_ellipsis (h c hc)]

/-! ## Type arguments -/

/-- A text without angle brackets. -/
def IsOutside (s : List Char) : Prop := ∀ c ∈ s, c ∉ "<>".toList

instance (s : List Char) : Decidable (IsOutside s) := List.decidableBAll _ s

theorem outsideArguments_append (h : IsOutside s) (rest : List Char) :
    outsideArguments 0 (s ++ rest) = s ++ outsideArguments 0 rest := by
  induction s with
  | nil => rfl
  | cons c s ih =>
    have hc : c ≠ '<' ∧ c ≠ '>' := by simpa using h c List.mem_cons_self
    rw [List.cons_append, outsideArguments, if_neg hc.1, if_neg hc.2, if_pos rfl,
      ih fun d hd => h d (List.mem_cons_of_mem c hd), List.cons_append]

/-- Nothing is kept of a text in which a bracket stays open all the way. -/
theorem outsideArguments_of_open {depth : Nat}
    (h : ∀ front, front <+: s → 0 < depth + Text.depth front) (rest : List Char) :
    outsideArguments depth (s ++ rest) =
      outsideArguments (depth + Text.depth s).toNat rest := by
  induction s generalizing depth with
  | nil => simp [Text.depth]
  | cons c s ih =>
    have hcons : ∀ front, Text.depth (c :: front) = Text.depth [c] + Text.depth front :=
      fun front => Text.depth_append [c] front
    have hstep : ∀ {next : Nat}, (next : Int) = depth + Text.depth [c] →
        outsideArguments next (s ++ rest) =
          outsideArguments (depth + Text.depth (c :: s)).toNat rest := by
      intro next hnext
      rw [hcons, ← Int.add_assoc, ← hnext]
      apply ih
      intro front hfront
      have hopen := h (c :: front) (List.cons_prefix_cons.2 ⟨rfl, hfront⟩)
      rw [hcons] at hopen
      omega
    -- A bracket is open before the character and after it, so its depth stays a natural number.
    have hhere : 0 < depth + Text.depth [] := h [] List.nil_prefix
    have hthere : 0 < depth + Text.depth [c] := h [c] (by simp)
    rw [List.cons_append, outsideArguments]
    split
    · next hc =>
      subst hc
      exact hstep rfl
    split
    · next hc =>
      subst hc
      have hclosing : Text.depth ['>'] = -1 := rfl
      exact hstep (by omega)
    · next hopening hclosing =>
      have hplain : Text.depth [c] = 0 := by simp [Text.depth, hopening, hclosing]
      have hempty : Text.depth [] = 0 := rfl
      rw [if_neg (by omega)]
      exact hstep (by omega)

/-! ## Type texts -/

/-- Angle brackets that close in the order in which they open. -/
structure IsBalanced (s : List Char) : Prop where
  closed : Text.depth s = 0
  opened : ∀ front, front <+: s → 0 ≤ Text.depth front

instance (s : List Char) : Decidable (IsBalanced s) :=
  decidable_of_iff (Text.depth s = 0 ∧ ∀ front ∈ s.inits, 0 ≤ Text.depth front)
    ⟨fun ⟨hclosed, hopened⟩ => ⟨hclosed, fun front hfront => hopened front
        ((List.mem_inits _ _).2 hfront)⟩,
      fun h => ⟨h.closed, fun front hfront => h.opened front ((List.mem_inits _ _).1 hfront)⟩⟩

/-- One identifier of a dotted name. -/
structure Name where
  text : List Char
  ne_nil : text ≠ []
  solid : Text.IsSolid text
  plain : ∀ c ∈ text, c ∉ "<>[].".toList

/-- What stands between an identifier and the next dot: blanks and perhaps type arguments. -/
structure Filler where
  before : List Char
  /-- What stands between the outer angle brackets. -/
  arguments : Option (List Char)
  behind : List Char
  before_blank : Text.IsBlankText before
  balanced : ∀ s ∈ arguments, IsBalanced s
  behind_blank : Text.IsBlankText behind

/-- A further identifier, with what leads to it from the one before. -/
structure Segment where
  filler : Filler
  /-- Blanks behind the dot. -/
  gap : List Char
  gap_blank : Text.IsBlankText gap
  name : Name

inductive MarkKind where
  | array
  | variadic

/-- The mark of an array or a variadic parameter, with the blanks in front of it. -/
structure Mark where
  gap : List Char
  gap_blank : Text.IsBlankText gap
  kind : MarkKind

/-- Annotations in front of a type: a text without angle brackets that ends in a blank or in a
closing parenthesis, or nothing. -/
structure Annotations where
  text : List Char
  outside : IsOutside text
  ends : ∀ c ∈ text.getLast?, Text.isBlank c = true ∨ c = ')'

/-- A type as it can be written. -/
structure Reference where
  annotations : Annotations
  name : Name
  segments : List Segment
  filler : Filler
  marks : List Mark

namespace Filler

/-- The blanks on both sides of the arguments. -/
def blanks (f : Filler) : List Char := f.before ++ f.behind

def text (f : Filler) : List Char :=
  f.before ++ (f.arguments.elim [] fun s => '<' :: s ++ ['>']) ++ f.behind

end Filler

def MarkKind.text : MarkKind → List Char
  | array => "[]".toList
  | variadic => "...".toList

def Mark.text (m : Mark) : List Char := m.gap ++ m.kind.text

namespace Segment

def text (s : Segment) : List Char := s.filler.text ++ '.' :: (s.gap ++ s.name.text)

/-- No blank is left beside the dot. -/
def IsTight (s : Segment) : Prop := s.filler.blanks = [] ∧ s.gap = []

/-- What a blank beside the dot leaves of the word in front of it, and the identifier. -/
def extend (word : List Char) (s : Segment) : List Char :=
  (if s.gap = [] then (if s.filler.blanks = [] then word else []) ++ ['.'] else []) ++ s.name.text

end Segment

namespace Reference

def text (r : Reference) : String :=
  String.ofList (r.annotations.text ++ r.name.text ++ r.segments.flatMap Segment.text ++
    r.filler.text ++ r.marks.flatMap Mark.text)

/-- The identifiers joined by dots. -/
def dotted (r : Reference) : String :=
  String.ofList (['.'].intercalate (r.name.text :: r.segments.map fun s => s.name.text))

/-- The dotted name from the last blank on, with the end of the annotations if no blank stands
before the first identifier. -/
def kept (r : Reference) : String :=
  String.ofList (r.segments.foldl Segment.extend
    (Text.lastRun (unmarked r.annotations.text) ++ r.name.text))

/-- No blank beside any dot, and one behind the annotations. -/
def IsTight (r : Reference) : Prop :=
  (∀ c ∈ r.annotations.text.getLast?, Text.isBlank c = true) ∧ ∀ s ∈ r.segments, s.IsTight

end Reference

/-! ## What is left of each part -/

theorem isOutside_of_isBlankText (h : Text.IsBlankText s) : IsOutside s := by
  intro c hc hbracket
  have hblank := h c hc
  have : c = '<' ∨ c = '>' := by simpa using hbracket
  rcases this with rfl | rfl <;> exact absurd hblank (by decide)

theorem isMarkFree_of_isBlankText (h : Text.IsBlankText s) : IsMarkFree s := by
  intro c hc hmark
  have hblank := h c hc
  have : c = '[' ∨ c = ']' ∨ c = '.' := by simpa using hmark
  rcases this with rfl | rfl | rfl <;> exact absurd hblank (by decide)

theorem Name.isOutside (n : Name) : IsOutside n.text := by
  intro c hc hbracket
  refine n.plain c hc ?_
  rcases (by simpa using hbracket : c = '<' ∨ c = '>') with rfl | rfl <;> decide

theorem Name.isMarkFree (n : Name) : IsMarkFree n.text := by
  intro c hc hmark
  refine n.plain c hc ?_
  rcases (by simpa using hmark : c = '[' ∨ c = ']' ∨ c = '.') with rfl | rfl | rfl <;> decide

theorem outsideArguments_balanced (h : IsBalanced s) (rest : List Char) :
    outsideArguments 0 ('<' :: s ++ '>' :: rest) = outsideArguments 0 rest := by
  have hopen : ∀ front, front <+: s → 0 < ((1 : Nat) : Int) + Text.depth front := by
    intro front hfront
    have hopened := h.opened front hfront
    omega
  have hinner := outsideArguments_of_open hopen ('>' :: rest)
  rw [h.closed] at hinner
  exact hinner

theorem Filler.outsideArguments_text (f : Filler) (rest : List Char) :
    outsideArguments 0 (f.text ++ rest) = f.blanks ++ outsideArguments 0 rest := by
  have hbehind := outsideArguments_append (isOutside_of_isBlankText f.behind_blank) rest
  rw [text, blanks, List.append_assoc, List.append_assoc, List.append_assoc,
    outsideArguments_append (isOutside_of_isBlankText f.before_blank)]
  cases harguments : f.arguments with
  | none => rw [Option.elim_none, List.nil_append, hbehind]
  | some s =>
    have hskip := outsideArguments_balanced (f.balanced s harguments) (f.behind ++ rest)
    rw [Option.elim_some, List.append_assoc, List.singleton_append, hskip, hbehind]

/-- A segment without its type arguments. -/
def Segment.bare (s : Segment) : List Char := s.filler.blanks ++ '.' :: (s.gap ++ s.name.text)

theorem Segment.outsideArguments_text (s : Segment) (rest : List Char) :
    outsideArguments 0 (s.text ++ rest) = s.bare ++ outsideArguments 0 rest := by
  have hname := outsideArguments_append s.name.isOutside rest
  have hgap := outsideArguments_append (isOutside_of_isBlankText s.gap_blank)
  have hdot : ∀ rest, outsideArguments 0 ('.' :: rest) = '.' :: outsideArguments 0 rest :=
    fun rest => rfl
  simp only [text, bare, List.append_assoc, List.cons_append, s.filler.outsideArguments_text, hdot,
    hgap, hname]

theorem outsideArguments_segments (segments : List Segment) (rest : List Char) :
    outsideArguments 0 (segments.flatMap Segment.text ++ rest) =
      segments.flatMap Segment.bare ++ outsideArguments 0 rest := by
  induction segments with
  | nil => rfl
  | cons s segments ih =>
    rw [List.flatMap_cons, List.flatMap_cons, List.append_assoc, s.outsideArguments_text, ih,
      List.append_assoc]

theorem Filler.isBlankText_blanks (f : Filler) : Text.IsBlankText f.blanks :=
  List.forall_mem_append.2 ⟨f.before_blank, f.behind_blank⟩

/-- A single dot is no mark. -/
theorem unmarked_dot (hs : IsMarkFree s) (hne : s ≠ []) : unmarked ('.' :: s) = '.' :: s := by
  obtain ⟨c, s, rfl⟩ := List.exists_cons_of_ne_nil hne
  have hc : c ∉ "...".toList := notMem_ellipsis (hs c List.mem_cons_self)
  have harray : Text.replace "[]".toList [] ('.' :: c :: s) = '.' :: c :: s := by
    refine Text.replace_of_disjoint (by decide) (List.forall_mem_cons.2 ⟨by decide, fun d hd => ?_⟩)
    exact notMem_array (hs d hd)
  have hrest : Text.replace "...".toList [] s = s :=
    Text.replace_of_disjoint (by decide) fun d hd => notMem_ellipsis (hs d (List.mem_cons_of_mem c hd))
  rw [unmarked, harray]
  calc Text.replace "...".toList [] (['.'] ++ c :: s)
      = Text.replace "...".toList [] ['.'] ++ c :: Text.replace "...".toList [] s :=
        Text.replace_append_cons (by decide) hc ['.'] s
    _ = ['.'] ++ c :: s := by rw [hrest]; rfl

theorem unmarked_append_of_isMarkFree (h : IsMarkFree s) (rest : List Char) :
    unmarked (s ++ rest) = s ++ unmarked rest := by
  rw [unmarked_append fun c hc => h c (List.mem_of_getLast? hc), unmarked_of_isMarkFree h]

theorem Segment.unmarked_bare (s : Segment) (rest : List Char) :
    unmarked (s.bare ++ rest) = s.bare ++ unmarked rest := by
  have hdotted : IsMarkFree (s.gap ++ s.name.text) :=
    List.forall_mem_append.2 ⟨isMarkFree_of_isBlankText s.gap_blank, s.name.isMarkFree⟩
  have hne : s.gap ++ s.name.text ≠ [] := by simp [s.name.ne_nil]
  have hlast : ∀ c ∈ ('.' :: (s.gap ++ s.name.text)).getLast?, c ∉ "[].".toList := fun c hc => by
    rw [List.getLast?_cons_of_ne_nil hne] at hc
    exact hdotted c (List.mem_of_getLast? hc)
  have hblanks := unmarked_append_of_isMarkFree (isMarkFree_of_isBlankText s.filler.isBlankText_blanks)
  rw [bare, List.append_assoc, hblanks, unmarked_append hlast, unmarked_dot hdotted hne,
    List.append_assoc]

theorem unmarked_segments (segments : List Segment) (rest : List Char) :
    unmarked (segments.flatMap Segment.bare ++ rest) =
      segments.flatMap Segment.bare ++ unmarked rest := by
  induction segments with
  | nil => rfl
  | cons s segments ih =>
    rw [List.flatMap_cons, List.append_assoc, s.unmarked_bare, ih, List.append_assoc]

theorem MarkKind.unmarked_text (k : MarkKind) (rest : List Char) :
    unmarked (k.text ++ rest) = unmarked rest := by
  cases k with
  | array => rfl
  | variadic =>
    have hdots : Text.replace "[]".toList [] ("...".toList ++ rest) =
        "...".toList ++ Text.replace "[]".toList [] rest := by
      rw [Text.replace_append (by decide) (by simp)]
      rfl
    rw [text, unmarked, hdots]
    rfl

theorem outsideArguments_marks (marks : List Mark) :
    outsideArguments 0 (marks.flatMap Mark.text) = marks.flatMap Mark.text := by
  induction marks with
  | nil => rfl
  | cons m marks ih =>
    have hkind : IsOutside m.kind.text := by cases m.kind <;> decide
    rw [List.flatMap_cons, Mark.text, List.append_assoc,
      outsideArguments_append (isOutside_of_isBlankText m.gap_blank),
      outsideArguments_append hkind, ih]

theorem isBlankText_unmarked_marks (marks : List Mark) :
    Text.IsBlankText (unmarked (marks.flatMap Mark.text)) := by
  induction marks with
  | nil => exact fun c hc => absurd hc List.not_mem_nil
  | cons m marks ih =>
    rw [List.flatMap_cons, Mark.text, List.append_assoc,
      unmarked_append_of_isMarkFree (isMarkFree_of_isBlankText m.gap_blank), m.kind.unmarked_text]
    exact List.forall_mem_append.2 ⟨m.gap_blank, ih⟩

/-! ## The word that is kept -/

theorem Annotations.notMem_last (a : Annotations) : ∀ c ∈ a.text.getLast?, c ∉ "[].".toList := by
  intro c hc
  rcases a.ends c hc with hblank | rfl
  · exact isMarkFree_of_isBlankText (s := [c]) (by simpa [Text.IsBlankText] using hblank) c (by simp)
  · decide

theorem lastRun_append_bare (word : List Char) (s : Segment) :
    Text.lastRun (word ++ s.bare) = s.extend (Text.lastRun word) := by
  have hdot : Text.IsSolid ['.'] := by decide
  have hsplit : word ++ s.bare = word ++ s.filler.blanks ++ ['.'] ++ s.gap ++ s.name.text := by
    simp [Segment.bare]
  rw [hsplit, Text.lastRun_append_of_isSolid s.name.solid,
    Text.lastRun_append_of_isBlankText s.gap_blank, Text.lastRun_append_of_isSolid hdot,
    Text.lastRun_append_of_isBlankText s.filler.isBlankText_blanks, Segment.extend]

theorem lastRun_append_segments (word : List Char) (segments : List Segment) :
    Text.lastRun (word ++ segments.flatMap Segment.bare) =
      segments.foldl Segment.extend (Text.lastRun word) := by
  induction segments generalizing word with
  | nil => rw [List.flatMap_nil, List.append_nil, List.foldl_nil]
  | cons s segments ih =>
    rw [List.flatMap_cons, ← List.append_assoc, ih, lastRun_append_bare, List.foldl_cons]

theorem extend_ne_nil (word : List Char) (s : Segment) : s.extend word ≠ [] := by
  simp [Segment.extend, s.name.ne_nil]

theorem foldl_extend_ne_nil {word : List Char} (h : word ≠ []) (segments : List Segment) :
    segments.foldl Segment.extend word ≠ [] := by
  induction segments generalizing word with
  | nil => exact h
  | cons s segments ih => exact ih (extend_ne_nil word s)

/-- The text without type arguments and marks, up to blanks at its end. -/
theorem Reference.unmarked_text (r : Reference) :
    ∃ blanks, Text.IsBlankText blanks ∧
      unmarked (outsideArguments 0 r.text.toList) =
        unmarked r.annotations.text ++ r.name.text ++ r.segments.flatMap Segment.bare ++ blanks := by
  have houtside : outsideArguments 0 r.text.toList =
      r.annotations.text ++ (r.name.text ++ (r.segments.flatMap Segment.bare ++
        (r.filler.blanks ++ r.marks.flatMap Mark.text))) := by
    rw [text, String.toList_ofList, List.append_assoc, List.append_assoc, List.append_assoc,
      outsideArguments_append r.annotations.outside,
      outsideArguments_append r.name.isOutside, outsideArguments_segments,
      r.filler.outsideArguments_text, outsideArguments_marks]
  refine ⟨r.filler.blanks ++ unmarked (r.marks.flatMap Mark.text), ?_, ?_⟩
  · exact List.forall_mem_append.2
      ⟨r.filler.isBlankText_blanks, isBlankText_unmarked_marks r.marks⟩
  · rw [houtside, unmarked_append r.annotations.notMem_last,
      unmarked_append_of_isMarkFree r.name.isMarkFree, unmarked_segments,
      unmarked_append_of_isMarkFree (isMarkFree_of_isBlankText r.filler.isBlankText_blanks)]
    simp only [List.append_assoc]

theorem Reference.erase_text_eq_kept (r : Reference) : erase r.text = r.kept := by
  obtain ⟨blanks, hblanks, hunmarked⟩ := r.unmarked_text
  have hrun : Text.lastRun (unmarked r.annotations.text ++ r.name.text ++
      r.segments.flatMap Segment.bare) = r.segments.foldl Segment.extend
        (Text.lastRun (unmarked r.annotations.text) ++ r.name.text) := by
    rw [lastRun_append_segments, Text.lastRun_append_of_isSolid r.name.solid]
  have hne : r.segments.foldl Segment.extend
      (Text.lastRun (unmarked r.annotations.text) ++ r.name.text) ≠ [] :=
    foldl_extend_ne_nil (by simp [r.name.ne_nil]) r.segments
  rw [erase_eq, hunmarked, Text.lastWord, Text.words_append_of_isBlankText hblanks,
    ← Text.lastWord, Text.lastWord_eq_lastRun (by rwa [hrun]), hrun, kept]

/-! ## When the word is the whole name -/

theorem intercalate_dot (s : List Char) (rest : List (List Char)) :
    ['.'].intercalate (s :: rest) = s ++ rest.flatMap ('.' :: ·) := by
  induction rest generalizing s with
  | nil => simp
  | cons s' rest ih =>
    rw [List.intercalate_cons_of_ne_nil (List.cons_ne_nil _ _), ih, List.flatMap_cons]
    simp

theorem Reference.dotted_eq (r : Reference) :
    r.dotted = String.ofList (r.name.text ++ r.segments.flatMap fun s => '.' :: s.name.text) := by
  rw [dotted, intercalate_dot, List.flatMap_map]

theorem Segment.extend_of_isTight {s : Segment} (h : s.IsTight) (word : List Char) :
    s.extend word = word ++ '.' :: s.name.text := by
  rw [extend, if_pos h.2, if_pos h.1, List.append_assoc]
  rfl

theorem foldl_extend_of_isTight {segments : List Segment} (h : ∀ s ∈ segments, s.IsTight)
    (word : List Char) :
    segments.foldl Segment.extend word =
      word ++ segments.flatMap fun s => '.' :: s.name.text := by
  induction segments generalizing word with
  | nil => simp
  | cons s segments ih =>
    rw [List.forall_mem_cons] at h
    rw [List.foldl_cons, ih h.2, Segment.extend_of_isTight h.1, List.flatMap_cons, List.append_assoc]

/-- A blank beside a dot cuts off what stands before it. -/
theorem length_foldl_extend_le {segments : List Segment} (h : ¬ ∀ s ∈ segments, s.IsTight)
    (word : List Char) :
    (segments.foldl Segment.extend word).length ≤
      (segments.flatMap fun s => '.' :: s.name.text).length := by
  induction segments generalizing word with
  | nil => exact absurd (by simp) h
  | cons s segments ih =>
    rw [List.foldl_cons, List.flatMap_cons, List.length_append]
    by_cases hrest : ∀ s ∈ segments, s.IsTight
    · have hs : ¬ s.IsTight := fun hs => h (List.forall_mem_cons.2 ⟨hs, hrest⟩)
      have hcut : (s.extend word).length ≤ s.name.text.length + 1 := by
        unfold Segment.extend
        by_cases hgap : s.gap = []
        · have hblanks : s.filler.blanks ≠ [] := fun hblanks => hs ⟨hblanks, hgap⟩
          simp [hgap, hblanks]
        · simp [hgap]
      rw [foldl_extend_of_isTight hrest, List.length_append, List.length_cons]
      omega
    · have := ih hrest (s.extend word)
      omega

theorem Reference.kept_eq_dotted_iff (r : Reference) : r.kept = r.dotted ↔ r.IsTight := by
  have hrun : Text.lastRun (unmarked r.annotations.text) = [] ↔
      ∀ c ∈ r.annotations.text.getLast?, Text.isBlank c = true := by
    rw [Text.lastRun_eq_nil_iff, getLast?_unmarked r.annotations.notMem_last]
  rw [kept, dotted_eq, String.ofList_inj, IsTight, ← hrun]
  constructor
  · intro heq
    have htight : ∀ s ∈ r.segments, s.IsTight := by
      by_contra hloose
      have hshort := length_foldl_extend_le hloose
        (Text.lastRun (unmarked r.annotations.text) ++ r.name.text)
      have hname : 0 < r.name.text.length := List.length_pos_of_ne_nil r.name.ne_nil
      rw [heq, List.length_append] at hshort
      omega
    rw [foldl_extend_of_isTight htight, List.append_assoc] at heq
    exact ⟨List.self_eq_append_left.1 heq.symm, htight⟩
  · rintro ⟨hnil, htight⟩
    rw [foldl_extend_of_isTight htight, hnil, List.nil_append]

/-- Erasure keeps the end of the dotted name from the last blank beside a dot on, and all of it just
when there is no such blank and the annotations are set off by one. -/
theorem erase_reference (r : Reference) :
    erase r.text = r.kept ∧ (erase r.text = r.dotted ↔ r.IsTight) := by
  rw [r.erase_text_eq_kept]
  exact ⟨rfl, r.kept_eq_dotted_iff⟩

/-- The name `p.T` with blanks around the dot. -/
def spacedName : Reference where
  annotations := ⟨[], by decide, by simp⟩
  name := ⟨['p'], by decide, by decide, List.forall_mem_singleton.2 (by decide)⟩
  segments := [{
    filler := ⟨[' '], none, [], by decide, by decide, by decide⟩
    gap := [' ']
    gap_blank := by decide
    name := ⟨['T'], by decide, by decide, List.forall_mem_singleton.2 (by decide)⟩ }]
  filler := ⟨[], none, [], by decide, by decide, by decide⟩
  marks := []

/-- Of the name only the last identifier is kept. -/
theorem erase_spacedName :
    spacedName.text = "p . T" ∧ spacedName.dotted = "p.T" ∧ erase "p . T" = "T" ∧
      erase spacedName.text ≠ spacedName.dotted := by
  decide

end TypeText

end SymbolTable
