import SymbolTable.Glob

/-!
# The translation of a glob pattern, token by token

A pattern is cut at its double stars, at its stars and at its question marks, and the escaped
remains are joined by the expressions for the cuts. The text that comes out is what one gets by
reading the pattern from left to right and writing the expression for each token, and reading that
text as an expression gives back the expressions of the tokens.
-/

namespace SymbolTable

namespace Glob

inductive Token where
  | anyText
  | anyName
  | anyChar
  | literal (c : Char)

namespace Token

/-- What a character stands for that is not the start of a double star. -/
def single (c : Char) : Token :=
  if c = '*' then anyName else if c = '?' then anyChar else literal c

/-- The tokens of a pattern. -/
def readAll : List Char → List Token
  | [] => []
  | '*' :: '*' :: rest => anyText :: readAll rest
  | c :: rest => single c :: readAll rest

def text : Token → List Char
  | anyText => ".*".toList
  | anyName => "[^/]*".toList
  | anyChar => ".".toList
  | literal c => Regex.escapeChar c

def regex : Token → Regex
  | anyText => .star (.one (.except '\n'))
  | anyName => .star (.one (.except '/'))
  | anyChar => .one (.except '\n')
  | literal c => .char c

end Token

/-! ## Cutting and joining -/

variable {sep : List Char} {g : Char → List Char}

/-- A character put in front of the first piece ends up in front of the joined text. -/
theorem intercalate_modifyHead (c : Char) {ps : List (List Char)} (h : ps ≠ []) :
    sep.intercalate ((ps.modifyHead (c :: ·)).map (·.flatMap g)) =
      g c ++ sep.intercalate (ps.map (·.flatMap g)) := by
  obtain ⟨p, ps, rfl⟩ := List.exists_cons_of_ne_nil h
  cases ps <;> simp [List.intercalate_cons_cons]

theorem intercalate_nil_cons {ps : List (List Char)} (h : ps ≠ []) :
    sep.intercalate (([] :: ps).map (·.flatMap g)) =
      sep ++ sep.intercalate (ps.map (·.flatMap g)) := by
  obtain ⟨p, ps, rfl⟩ := List.exists_cons_of_ne_nil h
  simp [List.intercalate_cons_cons]

/-- Cutting a text and joining its pieces by `sep` puts `sep` in the place of each cut. -/
theorem intercalate_pieces (cut : Char → Bool) (s : List Char) :
    sep.intercalate ((Text.pieces cut s).map (·.flatMap g)) =
      s.flatMap fun c => if cut c then sep else g c := by
  induction s with
  | nil => simp [Text.pieces]
  | cons c s ih =>
    have hs := Text.pieces_ne_nil cut s
    by_cases hc : cut c = true
    · rw [Text.pieces, if_pos hc, intercalate_nil_cons hs, ih, List.flatMap_cons, if_pos hc]
    · have hcons : Text.pieces cut (c :: s) = (Text.pieces cut s).modifyHead (c :: ·) := by
        rw [Text.pieces, if_neg hc]
        cases h : Text.pieces cut s with
        | nil => exact absurd h hs
        | cons piece more => rfl
      rw [hcons, intercalate_modifyHead c hs, ih, List.flatMap_cons, if_neg hc]

theorem parts_ne_nil (pattern : List Char) : parts pattern ≠ [] := by
  fun_cases parts pattern with
  | case1 => exact List.cons_ne_nil _ _
  | case2 rest => exact List.cons_ne_nil _ _
  | case3 c rest => simpa [List.modifyHead_eq_nil_iff] using parts_ne_nil rest

theorem intercalate_parts (pattern : List Char) :
    ".*".toList.intercalate ((parts pattern).map (·.flatMap fun c => (Token.single c).text)) =
      (Token.readAll pattern).flatMap Token.text := by
  fun_induction parts pattern with
  | case1 => rfl
  | case2 rest ih =>
    rw [intercalate_nil_cons (parts_ne_nil rest), ih]
    rfl
  | case3 c rest hstars ih =>
    rw [intercalate_modifyHead c (parts_ne_nil rest), ih, Token.readAll, List.flatMap_cons]
    exact hstars

/-- Without double stars, each character is a token. -/
theorem within_eq (part : List Char) : within part = part.flatMap fun c => (Token.single c).text := by
  have hname : (fun name : List Char =>
      ".".toList.intercalate ((Text.pieces (· = '?') name).map Regex.escape)) =
      (·.flatMap fun c => if c = '?' then ".".toList else Regex.escapeChar c) := by
    funext name
    simp only [show Regex.escape = (·.flatMap Regex.escapeChar) from rfl, intercalate_pieces,
      decide_eq_true_eq]
  rw [within, hname, intercalate_pieces]
  congr 1
  funext c
  by_cases hstar : c = '*'
  · simp [Token.single, hstar, Token.text]
  · by_cases hmark : c = '?' <;> simp [Token.single, hstar, hmark, Token.text]

theorem expression_eq (pattern : List Char) :
    expression pattern = '^' :: ((Token.readAll pattern).flatMap Token.text ++ ['$']) := by
  rw [expression, show within = (·.flatMap fun c => (Token.single c).text) from funext within_eq,
    intercalate_parts]
  rfl

/-! ## Reading the expression -/

/-- An escaped character is read as itself. -/
theorem readFrom_escapeChar (front : List Regex) (c : Char) (rest : List Char) :
    Regex.readFrom front (Regex.escapeChar c ++ rest) = Regex.readFrom (.char c :: front) rest := by
  rw [Regex.escapeChar]
  split
  · next hc => rw [List.cons_append, List.singleton_append, Regex.readFrom, if_pos hc]
  · next hc =>
    -- The characters that are read in another way are all among those that are escaped.
    have hplain : ∀ d ∈ Regex.metaCharacters, c ≠ d := fun d hd hcd => hc (hcd ▸ hd)
    rw [List.singleton_append, Regex.readFrom, if_neg hc]
    · exact fun h => absurd h (hplain '$' (by decide))
    · exact fun _ _ h => absurd h (hplain '\\' (by decide))
    · exact fun _ _ h => absurd h (hplain '[' (by decide))
    · exact hplain '.' (by decide)
    · exact fun _ _ _ => hplain '*' (by decide)

theorem readFrom_text (front : List Regex) (t : Token) (rest : List Char) :
    Regex.readFrom front (t.text ++ rest) = Regex.readFrom (t.regex :: front) rest := by
  cases t with
  | anyText =>
    change Regex.readFrom front ('.' :: '*' :: rest) = _
    rw [Regex.readFrom, Regex.readFrom]
    rfl
  | anyName =>
    change Regex.readFrom front ('[' :: '^' :: '/' :: ']' :: '*' :: rest) = _
    rw [Regex.readFrom, if_neg (by decide), Regex.readFrom]
    rfl
  | anyChar =>
    change Regex.readFrom front ('.' :: rest) = _
    rw [Regex.readFrom]
    rfl
  | literal c => exact readFrom_escapeChar front c rest

theorem readFrom_tokens (front : List Regex) (ts : List Token) :
    Regex.readFrom front (ts.flatMap Token.text ++ ['$']) =
      some (.all (front.reverse ++ ts.map Token.regex)) := by
  induction ts generalizing front with
  | nil => simp [Regex.readFrom]
  | cons t ts ih =>
    rw [List.flatMap_cons, List.append_assoc, readFrom_text, ih, List.reverse_cons,
      List.append_assoc]
    rfl

/-- The translation of a pattern can always be read. -/
theorem read?_expression (pattern : List Char) :
    Regex.read? (expression pattern) = some (.all ((Token.readAll pattern).map Token.regex)) := by
  rw [expression_eq]
  exact readFrom_tokens [] (Token.readAll pattern)

end Glob

end SymbolTable
