import Mathlib.Data.List.Induction
import SymbolTable.Tree.Graph

/-!
# Reading graphs back

The part of the DOT language that graphs are written in: a named directed graph of node statements
with a quoted label and of edge statements, between nodes named by numerals. In a quoted string a
backslash before a quote is the only escape, and the first quote without one ends the string. So a
string is read to its end just when what it quotes does not end in a backslash; else the backslash
takes the closing quote, and the string goes on through the text that follows.
-/

namespace SymbolTable

namespace Graph

inductive Token where
  | word (letters : List Char)
  | numeral (digits : List Char)
  | text (content : List Char)
  | arrow
  | mark (c : Char)
  deriving DecidableEq, Repr

/-- What the reader is inside of, with what it has read of it. -/
inductive Mode where
  | outside
  | word (read : List Char)
  | numeral (read : List Char)
  | dash
  | quoted (read : List Char)
  /-- Inside of a quoted string, after a backslash. -/
  | escaping (read : List Char)
  deriving DecidableEq, Repr

/-- What a character leads to that continues no token. -/
def enter (c : Char) : Option (Mode × List Token) :=
  if c.isDigit then some (.numeral [c], [])
  else if c = '"' then some (.quoted [], [])
  else if c = '-' then some (.dash, [])
  else if c.isWhitespace then some (.outside, [])
  else if c.isAlpha ∨ c = '_' then some (.word [c], [])
  else if c ∈ ['\x7b', '\x7d', '[', ']', '=', ';', ','] then some (.outside, [.mark c])
  else none

namespace Mode

/-- The mode after a character, with the tokens that the character ends or is. -/
def step : Mode → Char → Option (Mode × List Token)
  | outside, c => enter c
  | word read, c =>
    if c.isAlphanum ∨ c = '_' then some (word (read ++ [c]), [])
    else (enter c).map fun entered => (entered.1, .word read :: entered.2)
  | numeral read, c =>
    if c.isDigit then some (numeral (read ++ [c]), [])
    else (enter c).map fun entered => (entered.1, .numeral read :: entered.2)
  | dash, c => if c = '>' then some (outside, [.arrow]) else none
  | quoted read, c =>
    if c = '"' then some (outside, [.text read])
    else if c = '\\' then some (escaping read, [])
    else some (quoted (read ++ [c]), [])
  | escaping read, c =>
    if c = '"' then some (quoted (read ++ ['"']), [])
    else if c = '\\' then some (escaping (read ++ ['\\']), [])
    else some (quoted (read ++ ['\\', c]), [])

/-- What has been read of a quoted string that has not ended. -/
def inside : Mode → Option (List Char)
  | quoted read | escaping read => some read
  | _ => none

/-- The tokens that the end of the input ends; it ends no quoted string. -/
def finish : Mode → Option (List Token)
  | outside => some []
  | word read => some [.word read]
  | numeral read => some [.numeral read]
  | dash | quoted _ | escaping _ => none

end Mode

/-- The tokens that end in a text, and the mode after it. -/
def run : Mode → List Char → Option (List Token × Mode)
  | mode, [] => some ([], mode)
  | mode, c :: rest =>
    (mode.step c).bind fun (next, done) =>
      (run next rest).map fun (later, last) => (done ++ later, last)

def tokens (mode : Mode) (text : List Char) : Option (List Token) :=
  (run mode text).bind fun (read, last) => last.finish.map (read ++ ·)

inductive Statement where
  | node (name label : List Char)
  | edge (source target : List Char)
  deriving DecidableEq, Repr

/-- The statements up to the brace that closes the graph. -/
def statements : List Token → Option (List Statement)
  | [.mark '\x7d'] => some []
  | .numeral name :: .mark '[' :: .word ['l', 'a', 'b', 'e', 'l'] :: .mark '=' :: .text label ::
      .mark ']' :: .mark ';' :: rest => (statements rest).map (.node name label :: ·)
  | .numeral source :: .arrow :: .numeral target :: .mark ';' :: rest =>
    (statements rest).map (.edge source target :: ·)
  | _ => none

structure Digraph where
  name : List Char
  statements : List Statement
  deriving DecidableEq, Repr

def digraph : List Token → Option Digraph
  | .word keyword :: .word name :: .mark '\x7b' :: rest =>
    if keyword = "digraph".toList then (statements rest).map (Digraph.mk name) else none
  | _ => none

/-- The graph that a text describes, if it is well-formed. -/
def read (text : String) : Option Digraph := (tokens .outside text.toList).bind digraph

/-! ## Runs -/

theorem run_append {mode next : Mode} {front : List Char} {done : List Token}
    (h : run mode front = some (done, next)) (back : List Char) :
    run mode (front ++ back) = (run next back).map fun rest => (done ++ rest.1, rest.2) := by
  induction front generalizing mode done with
  | nil =>
    cases h
    simp
  | cons c front ih =>
    obtain ⟨stepped, hstep, hlater⟩ := Option.bind_eq_some_iff.1 h
    obtain ⟨start, hrun, hdone⟩ := Option.map_eq_some_iff.1 hlater
    cases hdone
    simp [run, hstep, ih hrun, Function.comp_def]

theorem run_trans {mode next last : Mode} {front back : List Char} {done later : List Token}
    (hfront : run mode front = some (done, next)) (hback : run next back = some (later, last)) :
    run mode (front ++ back) = some (done ++ later, last) := by
  rw [run_append hfront, hback, Option.map_some]

theorem tokens_append {mode next : Mode} {front : List Char} {done : List Token}
    (h : run mode front = some (done, next)) (back : List Char) :
    tokens mode (front ++ back) = (tokens next back).map (done ++ ·) := by
  rw [tokens, tokens, run_append h]
  cases hback : run next back <;> simp [Function.comp_def]

/-! ## Numerals -/

def IsNumeral (digits : List Char) : Prop := digits ≠ [] ∧ ∀ c ∈ digits, c.isDigit = true

/-- The numeral of a number. -/
def numeral (n : Nat) : List Char := (toString n).toList

theorem numeral_eq_toDigits (n : Nat) : numeral n = Nat.toDigits 10 n := Nat.toList_repr

theorem isNumeral_numeral (n : Nat) : IsNumeral (numeral n) := by
  rw [numeral_eq_toDigits]
  exact ⟨Nat.toDigits_ne_nil, fun c => Nat.isDigit_of_mem_toDigits (by decide) (by decide)⟩

theorem numeral_injective : Function.Injective numeral := fun m n h => by
  rw [numeral_eq_toDigits, numeral_eq_toDigits] at h
  have hvalue := congrArg (Nat.ofDigitChars 10 · 0) h
  simpa only [Nat.ofDigitChars_ten_toDigits] using hvalue

theorem run_digits (read : List Char) {digits : List Char} (h : ∀ c ∈ digits, c.isDigit = true) :
    run (.numeral read) digits = some ([], .numeral (read ++ digits)) := by
  induction digits generalizing read with
  | nil => simp [run]
  | cons c digits ih =>
    have hc := h c List.mem_cons_self
    simp [run, Mode.step, hc, ih _ fun d hd => h d (List.mem_cons_of_mem c hd)]

theorem run_numeral {digits : List Char} (h : IsNumeral digits) :
    run .outside digits = some ([], .numeral digits) := by
  obtain ⟨hne, hdigits⟩ := h
  obtain ⟨c, rest, rfl⟩ := List.exists_cons_of_ne_nil hne
  have hrest := run_digits [c] fun d hd => hdigits d (List.mem_cons_of_mem c hd)
  simp [run, Mode.step, enter, hdigits c List.mem_cons_self, hrest]

/-! ## Quoted strings -/

/-- Where the reader stands in a quoted string after an escaped text. -/
def within (label : List Char) : Mode :=
  if label.getLast? = some '\\' then .escaping label.dropLast else .quoted label

theorem run_within (label : List Char) (c : Char) :
    run (within label) (escape [c]) = some ([], within (label ++ [c])) := by
  by_cases hlast : label.getLast? = some '\\'
  · obtain ⟨front, rfl⟩ := List.getLast?_eq_some_iff.1 hlast
    by_cases hquote : c = '"'
    · subst hquote
      simp [within, escape, run, Mode.step]
    · by_cases hslash : c = '\\' <;> simp [within, escape, run, Mode.step, hquote, hslash]
  · by_cases hquote : c = '"'
    · subst hquote
      simp [within, escape, run, Mode.step, hlast]
    · by_cases hslash : c = '\\' <;> simp [within, escape, run, Mode.step, hquote, hslash, hlast]

theorem run_escape (label : List Char) :
    run (.quoted []) (escape label) = some ([], within label) := by
  induction label using List.reverseRecOn with
  | nil => rfl
  | append_singleton label c ih =>
    rw [escape, List.flatMap_append]
    exact run_trans ih (run_within label c)

/-- A character ends the string that the reader is inside of, or adds to what was read of it. -/
theorem step_inside {mode next : Mode} {c : Char} {read : List Char} {done : List Token}
    (hmode : mode.inside = some read) (h : mode.step c = some (next, done)) :
    done = [.text read] ∨ done = [] ∧ ∃ more, next.inside = some (read ++ more) := by
  cases mode with
  | outside | word _ | numeral _ | dash => cases hmode
  | quoted _ =>
    cases hmode
    simp only [Mode.step] at h
    split_ifs at h <;> cases h
    · exact .inl rfl
    · exact .inr ⟨rfl, [], by simp [Mode.inside]⟩
    · exact .inr ⟨rfl, [c], rfl⟩
  | escaping _ =>
    cases hmode
    simp only [Mode.step] at h
    split_ifs at h <;> cases h <;> exact .inr ⟨rfl, _, rfl⟩

/-- What has been read of a quoted string starts the content of the token that it becomes. -/
theorem text_of_tokens {mode : Mode} {read rest : List Char} {later : List Token}
    (hmode : mode.inside = some read) (h : tokens mode rest = some later) :
    ∃ content tail, later = .text (read ++ content) :: tail := by
  induction rest generalizing mode read later with
  | nil => cases mode <;> cases hmode <;> cases h
  | cons c rest ih =>
    cases hstep : mode.step c with
    | none => simp [tokens, run, hstep] at h
    | some stepped =>
      have hrun : run mode [c] = some (stepped.2, stepped.1) := by simp [run, hstep]
      rw [← List.singleton_append, tokens_append hrun] at h
      obtain ⟨after, hafter, rfl⟩ := Option.map_eq_some_iff.1 h
      rcases step_inside hmode hstep with hdone | ⟨hdone, more, hinside⟩
      · exact ⟨[], after, by simp [hdone]⟩
      · obtain ⟨content, tail, rfl⟩ := ih hinside hafter
        exact ⟨more ++ content, tail, by simp [hdone]⟩

/-! ## Statements -/

namespace Statement

/-- The line that a statement is written in. -/
def line : Statement → List Char
  | node name label =>
    "    ".toList ++ name ++ " [label=\"".toList ++ escape label ++ "\"];\n".toList
  | edge source target => "    ".toList ++ source ++ " -> ".toList ++ target ++ ";\n".toList

@[simp] theorem line_node (name label : List Char) : (node name label).line =
    "    ".toList ++ name ++ " [label=\"".toList ++ escape label ++ "\"];\n".toList := rfl

@[simp] theorem line_edge (source target : List Char) : (edge source target).line =
    "    ".toList ++ source ++ " -> ".toList ++ target ++ ";\n".toList := rfl

/-- What is read in the line. -/
def tokens : Statement → List Token
  | node name label =>
    [.numeral name, .mark '[', .word "label".toList, .mark '=', .text label, .mark ']', .mark ';']
  | edge source target => [.numeral source, .arrow, .numeral target, .mark ';']

def IsNumbered : Statement → Prop
  | node name _ => IsNumeral name
  | edge source target => IsNumeral source ∧ IsNumeral target

/-- No label ends in the backslash that would take the closing quote. -/
def IsClosed : Statement → Prop
  | node _ label => label.getLast? ≠ some '\\'
  | edge _ _ => True

/-- The node that a statement declares, with its label. -/
def node? : Statement → Option (List Char × List Char)
  | node name label => some (name, label)
  | edge _ _ => none

def edge? : Statement → Option (List Char × List Char)
  | node _ _ => none
  | edge source target => some (source, target)

end Statement

theorem run_indented {name : List Char} (hname : IsNumeral name) :
    run .outside ("    ".toList ++ name) = some ([], .numeral name) := by
  have hindent : run .outside "    ".toList = some ([], .outside) := rfl
  exact run_trans hindent (run_numeral hname)

theorem run_opening {name : List Char} (hname : IsNumeral name) (label : List Char) :
    run .outside ("    ".toList ++ name ++ " [label=\"".toList ++ escape label) =
      some ([.numeral name, .mark '[', .word "label".toList, .mark '='], within label) := by
  have hbracket : run (.numeral name) " [label=\"".toList =
      some ([.numeral name, .mark '[', .word "label".toList, .mark '='], .quoted []) := rfl
  exact run_trans (run_trans (run_indented hname) hbracket) (run_escape label)

theorem run_line {s : Statement} (hnumbered : s.IsNumbered) (hclosed : s.IsClosed) :
    run .outside s.line = some (s.tokens, .outside) := by
  cases s with
  | node name label =>
    have hwithin : within label = .quoted label := if_neg hclosed
    have hend : run (.quoted label) "\"];\n".toList =
        some ([.text label, .mark ']', .mark ';'], .outside) := rfl
    exact run_trans (hwithin ▸ run_opening hnumbered label) hend
  | edge source target =>
    have harrow : run (.numeral source) " -> ".toList =
        some ([.numeral source, .arrow], .outside) := rfl
    have hend : run (.numeral target) ";\n".toList =
        some ([.numeral target, .mark ';'], .outside) := rfl
    have hsource := run_trans (run_indented hnumbered.1) harrow
    exact run_trans (run_trans hsource (run_numeral hnumbered.2)) hend

/-- The statements up to the end of a text. -/
def listing (text : List Char) : Option (List Statement) := (tokens .outside text).bind statements

theorem listing_line {s : Statement} (hnumbered : s.IsNumbered) (hclosed : s.IsClosed)
    (rest : List Char) : listing (s.line ++ rest) = (listing rest).map (s :: ·) := by
  rw [listing, listing, tokens_append (run_line hnumbered hclosed)]
  cases tokens .outside rest with
  | none => rfl
  | some later => cases s <;> rfl

theorem statements_text {name content : List Char} {tail : List Token} {read : List Statement}
    (h : statements (.numeral name :: .mark '[' :: .word "label".toList :: .mark '=' ::
      .text content :: tail) = some read) : ∃ later, read = .node name content :: later := by
  have hlabel : "label".toList = ['l', 'a', 'b', 'e', 'l'] := rfl
  rw [hlabel, statements.eq_def] at h
  split at h
  case h_1 heq => cases heq
  case h_2 heq =>
    cases heq
    obtain ⟨later, -, rfl⟩ := Option.map_eq_some_iff.1 h
    exact ⟨later, rfl⟩
  case h_3 heq => cases heq
  case h_4 => cases h

/-- The label of a statement that is not closed is never read: the closing quote becomes part of
it. -/
theorem label_of_listing {name label rest : List Char} {read : List Statement}
    (hname : IsNumeral name) (hlast : label.getLast? = some '\\')
    (h : listing ((Statement.node name label).line ++ rest) = some read) :
    ∃ content later, read = .node name content :: later ∧ content ≠ label := by
  obtain ⟨front, rfl⟩ := List.getLast?_eq_some_iff.1 hlast
  have hover : run (within (front ++ ['\\'])) "\"];\n".toList =
      some ([], .quoted (front ++ "\"];\n".toList)) := by
    simp [within, run, Mode.step]
  have hline : run .outside (Statement.node name (front ++ ['\\'])).line =
      some ([.numeral name, .mark '[', .word "label".toList, .mark '='],
        .quoted (front ++ "\"];\n".toList)) := run_trans (run_opening hname _) hover
  rw [listing, tokens_append hline] at h
  obtain ⟨all, hall, hread⟩ := Option.bind_eq_some_iff.1 h
  obtain ⟨inner, hinner, rfl⟩ := Option.map_eq_some_iff.1 hall
  obtain ⟨content, tail, rfl⟩ := text_of_tokens rfl hinner
  obtain ⟨later, rfl⟩ := statements_text hread
  exact ⟨_, later, rfl, by simp⟩

theorem listing_lines {written : List Statement} (hnumbered : ∀ s ∈ written, s.IsNumbered)
    (hclosed : ∀ s ∈ written, s.IsClosed) :
    listing (written.flatMap Statement.line ++ ['\x7d']) = some written := by
  induction written with
  | nil => rfl
  | cons s written ih =>
    rw [List.forall_mem_cons] at hnumbered hclosed
    rw [List.flatMap_cons, List.append_assoc, listing_line hnumbered.1 hclosed.1,
      ih hnumbered.2 hclosed.2, Option.map_some]

/-- Labels that are read as they were written are closed. -/
theorem isClosed_of_listing {written read : List Statement} {rest : List Char}
    (hnumbered : ∀ s ∈ written, s.IsNumbered)
    (h : listing (written.flatMap Statement.line ++ rest) = some read)
    (hnodes : written.filterMap Statement.node? = read.filterMap Statement.node?) :
    ∀ s ∈ written, s.IsClosed := by
  induction written generalizing read with
  | nil => simp
  | cons s written ih =>
    rw [List.forall_mem_cons] at hnumbered ⊢
    rw [List.flatMap_cons, List.append_assoc] at h
    by_cases hclosed : s.IsClosed
    · rw [listing_line hnumbered.1 hclosed] at h
      obtain ⟨later, hlater, rfl⟩ := Option.map_eq_some_iff.1 h
      refine ⟨hclosed, ih hnumbered.2 hlater ?_⟩
      cases s with
      | node name label => simpa [Statement.node?, List.filterMap_cons] using hnodes
      | edge source target => exact hnodes
    · cases s with
      | edge source target => exact absurd trivial hclosed
      | node name label =>
        obtain ⟨content, later, rfl, hne⟩ :=
          label_of_listing hnumbered.1 (Decidable.not_not.1 hclosed) h
        have hlabel : (name, label) = (name, content) := (List.cons.inj hnodes).1
        exact absurd (Prod.mk.inj hlabel).2.symm hne

/-! ## Whole graphs -/

namespace Digraph

def nodes (g : Digraph) : List (List Char × List Char) := g.statements.filterMap Statement.node?

def edges (g : Digraph) : List (List Char × List Char) := g.statements.filterMap Statement.edge?

end Digraph

theorem read_eq {text : String} {body : List Char}
    (h : text.toList = "digraph Components \x7b\n".toList ++ body) :
    read text = (listing body).map (Digraph.mk "Components".toList) := by
  have hopen : run .outside "digraph Components \x7b\n".toList =
      some ([.word "digraph".toList, .word "Components".toList, .mark '\x7b'], .outside) := rfl
  rw [read, listing, h, tokens_append hopen]
  cases tokens .outside body <;> rfl

end Graph

end SymbolTable
