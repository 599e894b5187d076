import SymbolTable.Proofs.Glob.Translation
import SymbolTable.Proofs.Regex.Matching

/-!
# What a glob pattern takes

The language of a pattern, read from left to right, and the proof that a parsed pattern matches
exactly the texts in it, as long as these have no line break.
-/

namespace SymbolTable

namespace Glob

/-- The texts that a pattern takes: two stars stand for any text, a star that no star follows for
any text without a separator, a question mark for one character, and any other character for itself.
-/
inductive Takes : List Char → List Char → Prop
  | nil : Takes [] []
  | anyText {pattern back} (front : List Char) (h : Takes pattern back) :
      Takes ('*' :: '*' :: pattern) (front ++ back)
  | anyName {pattern back} (front : List Char) (hp : pattern.head? ≠ some '*')
      (hf : '/' ∉ front) (h : Takes pattern back) : Takes ('*' :: pattern) (front ++ back)
  | anyChar {pattern back} (c : Char) (h : Takes pattern back) : Takes ('?' :: pattern) (c :: back)
  | literal {pattern back c} (hstar : c ≠ '*') (hmark : c ≠ '?') (h : Takes pattern back) :
      Takes (c :: pattern) (c :: back)

/-! ## One token -/

/-- The texts that a token stands for. -/
def Token.Covers : Token → List Char → Prop
  | anyText, _ => True
  | anyName, s => '/' ∉ s
  | anyChar, s => ∃ c, s = [c]
  | literal c, s => s = [c]

theorem Token.matches_regex_iff (t : Token) {s : List Char} (hn : '\n' ∉ s) :
    Regex.Matches t.regex s ↔ t.Covers s := by
  cases t with
  | anyText => exact iff_of_true (Regex.matches_star_except_iff.2 hn) trivial
  | anyName => exact Regex.matches_star_except_iff
  | anyChar =>
    simp only [regex, Covers, Regex.matches_one_iff, CharClass.contains_except]
    refine exists_congr fun c => and_iff_right_of_imp ?_
    rintro rfl rfl
    exact hn (List.mem_singleton.2 rfl)
  | literal c => exact Regex.matches_char_iff

variable {pattern text : List Char} {c : Char}

theorem takes_nil_iff : Takes [] text ↔ text = [] :=
  ⟨fun | .nil => rfl, fun h => h ▸ .nil⟩

theorem takes_anyText_iff :
    Takes ('*' :: '*' :: pattern) text ↔
      ∃ front back, text = front ++ back ∧ Token.anyText.Covers front ∧ Takes pattern back := by
  constructor
  · intro h
    cases h with
    | anyText front h => exact ⟨front, _, rfl, trivial, h⟩
    | anyName _ hp => exact absurd rfl hp
    | literal hstar => exact absurd rfl hstar
  · rintro ⟨front, back, rfl, -, h⟩
    exact .anyText front h

theorem takes_single_iff (hp : c = '*' → pattern.head? ≠ some '*') :
    Takes (c :: pattern) text ↔
      ∃ front back, text = front ++ back ∧ (Token.single c).Covers front ∧ Takes pattern back := by
  constructor
  · intro h
    cases h with
    | anyText => exact absurd rfl (hp rfl)
    | anyName front _ hf h => exact ⟨front, _, rfl, hf, h⟩
    | anyChar d h => exact ⟨[d], _, rfl, ⟨d, rfl⟩, h⟩
    | literal hstar hmark h =>
      refine ⟨[c], _, rfl, ?_, h⟩
      rw [Token.single, if_neg hstar, if_neg hmark]
      rfl
  · rintro ⟨front, back, rfl, hf, h⟩
    rw [Token.single] at hf
    split at hf
    · next hstar => exact hstar ▸ .anyName front (hp hstar) hf h
    · next hstar =>
      split at hf
      · next hmark =>
        obtain ⟨d, rfl⟩ := hf
        exact hmark ▸ .anyChar d h
      · next hmark =>
        obtain rfl : front = [c] := hf
        exact .literal hstar hmark h

/-! ## All tokens -/

/-- Takes off what the first token stands for. -/
theorem matches_cons_token_iff (t : Token) {ts : List Token} {rest : List Char} (hn : '\n' ∉ text)
    (ih : ∀ back, '\n' ∉ back →
      (Regex.Matches (.all (ts.map Token.regex)) back ↔ Takes rest back)) :
    Regex.Matches (.all ((t :: ts).map Token.regex)) text ↔
      ∃ front back, text = front ++ back ∧ t.Covers front ∧ Takes rest back := by
  rw [List.map_cons, Regex.matches_all_cons_iff]
  refine exists_congr fun front => exists_congr fun back => and_congr_right fun ht => ?_
  rw [ht, List.mem_append, not_or] at hn
  exact and_congr (t.matches_regex_iff hn.1) (ih back hn.2)

theorem matches_tokens_iff (pattern text : List Char) (hn : '\n' ∉ text) :
    Regex.Matches (.all ((Token.readAll pattern).map Token.regex)) text ↔ Takes pattern text := by
  fun_induction Token.readAll pattern generalizing text with
  | case1 => rw [takes_nil_iff]; exact Regex.matches_empty_iff
  | case2 rest ih => rw [matches_cons_token_iff _ hn ih, takes_anyText_iff]
  | case3 c rest hstars ih =>
    rw [matches_cons_token_iff _ hn ih, takes_single_iff]
    rintro rfl hhead
    obtain ⟨more, rfl⟩ := List.head?_eq_some_iff.1 hhead
    exact hstars more rfl rfl

/-! ## Parsed patterns -/

theorem parse_of_brackets {pattern : String} (h : '[' ∈ pattern.toList ∨ ']' ∈ pattern.toList) :
    parse pattern = .error (.brackets pattern) := if_pos h

/-- Without brackets the translation is read, and what it matches is the language of the pattern. -/
theorem parse_of_no_brackets {pattern : String} (ho : '[' ∉ pattern.toList)
    (hc : ']' ∉ pattern.toList) :
    ∃ g, parse pattern = .ok g ∧ ∀ text : String, '\n' ∉ text.toList →
      (g.isMatch text = true ↔ Takes pattern.toList text.toList) := by
  refine ⟨⟨.all ((Token.readAll pattern.toList).map Token.regex)⟩, ?_, fun text hn => ?_⟩
  · simp only [parse, if_neg (not_or.2 ⟨ho, hc⟩), read?_expression]
  · exact Regex.accepts_iff.trans (matches_tokens_iff _ _ hn)

/-- A pattern with brackets is refused. Any other one matches exactly the texts of its language, and
as a pattern to leave out, if it ends in a separator, it is the pattern with two stars behind it. -/
theorem parse_exact (pattern : String) :
    (('[' ∈ pattern.toList ∨ ']' ∈ pattern.toList) →
      parse pattern = .error (.brackets pattern) ∧ ∃ e, parseExclude pattern = .error e) ∧
    ('[' ∉ pattern.toList → ']' ∉ pattern.toList →
      (∃ g, parse pattern = .ok g ∧ ∀ text : String, '\n' ∉ text.toList →
        (g.isMatch text = true ↔ Takes pattern.toList text.toList)) ∧
      (pattern.toList.getLast? = some '/' →
        parseExclude pattern = parse (pattern ++ "**") ∧
        ∃ g, parseExclude pattern = .ok g ∧ ∀ text : String, '\n' ∉ text.toList →
          (g.isMatch text = true ↔ Takes (pattern.toList ++ ['*', '*']) text.toList))) := by
  have hstars : (pattern ++ "**").toList = pattern.toList ++ ['*', '*'] := by simp
  refine ⟨fun h => ⟨parse_of_brackets h, ?_⟩, fun ho hc => ⟨parse_of_no_brackets ho hc, ?_⟩⟩
  · rw [parseExclude]
    split
    · exact ⟨_, parse_of_brackets (by simpa [hstars] using h)⟩
    · exact ⟨_, parse_of_brackets h⟩
  · intro hlast
    rw [parseExclude, if_pos hlast, ← hstars]
    refine ⟨rfl, ?_⟩
    exact parse_of_no_brackets (by simpa [hstars] using ho) (by simpa [hstars] using hc)

/-- A question mark, plus signs and a separator at the end: what is matched is in the language. -/
theorem parse_exact_of_directory :
    ∃ g, parseExclude "lib/c++/?/" = .ok g ∧
      g.isMatch "lib/c++/a/b/X.java" = true ∧ g.isMatch "lib/ccc/a/X.java" = false ∧
      Takes ("lib/c++/?/".toList ++ ['*', '*']) "lib/c++/a/b/X.java".toList ∧
      ¬ Takes ("lib/c++/?/".toList ++ ['*', '*']) "lib/ccc/a/X.java".toList := by
  obtain ⟨-, g, hg, hmatch⟩ :=
    ((parse_exact "lib/c++/?/").2 (by decide +kernel) (by decide +kernel)).2 (by decide +kernel)
  have hbelow : (parseExclude "lib/c++/?/").toOption.map (·.isMatch "lib/c++/a/b/X.java") =
      some true := by decide +kernel
  have hother : (parseExclude "lib/c++/?/").toOption.map (·.isMatch "lib/ccc/a/X.java") =
      some false := by decide +kernel
  simp only [hg, Except.toOption, Option.map_some, Option.some.injEq] at hbelow hother
  refine ⟨g, hg, hbelow, hother, (hmatch _ (by decide +kernel)).1 hbelow, fun h => ?_⟩
  rw [(hmatch _ (by decide +kernel)).2 h] at hother
  cases hother

end Glob

end SymbolTable
