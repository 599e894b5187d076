import SymbolTable.Java.Lexeme
import SymbolTable.Java.Numeral
import SymbolTable.Text.Letter

/-!
# Lexemes of a source text

The lexer takes the longest lexeme at each place. Only `>` is always taken alone, so that the ends
of nested type arguments stay apart; the grammar joins adjacent ones to shifts and comparisons.

A string may embed expressions between `\{` and `}`. The parts of such a string are lexemes of their
own, and the open strings are kept as a stack.
-/

namespace SymbolTable

namespace Java

/-- The blanks between lexemes: space and the controls from tab to carriage return. -/
def isSpace (c : Char) : Bool := c = ' ' || ('\t' ≤ c && c ≤ '\r')

def isWordStart (c : Char) : Bool := Text.isLetter c || c = '_' || c = '$'

def isWordPart (c : Char) : Bool := isWordStart c || Text.isDigit c || c = '¢'

/-- All symbols, none before one that it starts. -/
def symbols : List (List Char) :=
  ["@interface", "<<=", "...", "==", "!=", "<=", "&&", "||", "++", "--", "+=", "-=", "*=", "/=",
    "%=", "&=", "|=", "^=", "->", "::", "<<", "=", "<", ">", "!", "~", "?", ":", "+", "-", "*",
    "/", "&", "|", "^", "%", "(", ")", "\x7b", "\x7d", "[", "]", ";", ",", ".",
    "@"].map String.toList

/-! ## Lengths of lexemes -/

/-- The number of characters of a comment's rest up to and with `*/`. -/
def commentRest : List Char → Option Nat
  | '*' :: '/' :: _ => some 2
  | _ :: rest => (commentRest rest).map (· + 1)
  | [] => none

def commentLength : List Char → Option Nat
  | '/' :: '/' :: rest => some (2 + (rest.takeWhile (· ≠ '\n')).length)
  | '/' :: '*' :: rest => (commentRest rest).map (· + 2)
  | _ => none

def isHexDigit (c : Char) : Bool :=
  c.isDigit || ('a' ≤ c && c ≤ 'f') || ('A' ≤ c && c ≤ 'F')

/-- Whether the text after a backslash is a known escape: `x` and `u` want hexadecimal digits. -/
def isEscape : List Char → Bool
  | 'x' :: rest => 2 ≤ (rest.takeWhile isHexDigit).length
  | 'u' :: '\x7b' :: rest =>
    !(rest.takeWhile isHexDigit).isEmpty && (rest.dropWhile isHexDigit).head? = some '\x7d'
  | 'u' :: rest => 4 ≤ (rest.takeWhile isHexDigit).length
  | _ :: _ => true
  | [] => false

/-- How a part of a string ends. -/
inductive StringStop where
  | quote
  | expression
  deriving DecidableEq, Repr

/-- The number of characters of a string's rest up to and with its closing quotes or the start of an
embedded expression. A text block is closed by three quotes. -/
def stringRest (isBlock : Bool) : List Char → Option (Nat × StringStop)
  | '\\' :: '\x7b' :: _ => some (2, .expression)
  | '\\' :: c :: rest =>
    if isEscape (c :: rest) then (stringRest isBlock rest).map fun r => (r.1 + 2, r.2) else none
  | '"' :: rest =>
    if isBlock then
      if ['"', '"'].isPrefixOf rest then some (3, .quote)
      else (stringRest isBlock rest).map fun r => (r.1 + 1, r.2)
    else some (1, .quote)
  | '\\' :: [] => none
  | _ :: rest => (stringRest isBlock rest).map fun r => (r.1 + 1, r.2)
  | [] => none

/-- The number of characters of a character literal's rest. -/
def characterRest : List Char → Option Nat
  | '\'' :: _ => some 1
  | '\\' :: _ :: rest => (characterRest rest).map (· + 2)
  | '\\' :: [] => none
  | c :: rest => if c = '\n' then none else (characterRest rest).map (· + 1)
  | [] => none

def characterLength : List Char → Option Nat
  | '\'' :: '\'' :: _ => none
  | '\'' :: rest => (characterRest rest).map (· + 1)
  | _ => none

def numeralLength : List Char → Option Nat
  | c :: rest =>
    if c.isDigit || (c = '.' && (rest.head?.map Char.isDigit).getD false) then
      Numeral.numeral.longest (c :: rest)
    else none
  | [] => none

def wordLength : List Char → Option Nat
  | c :: rest => if isWordStart c then some (1 + (rest.takeWhile isWordPart).length) else none
  | [] => none

def symbolLength (s : List Char) : Option Nat :=
  (symbols.find? fun symbol => symbol.isPrefixOf s).map List.length

/-! ## Embedded expressions -/

/-- A string with an expression being read. -/
structure OpenString where
  isBlock : Bool
  /-- The braces opened and not yet closed inside of the expression. -/
  braces : Nat
  deriving DecidableEq, Repr

/-- The string that starts here. -/
def stringLength (strings : List OpenString) (s : List Char) :
    Option (LexemeKind × Nat × List OpenString) :=
  if ['"'].isPrefixOf s then
    let isBlock := ['"', '"', '"'].isPrefixOf s
    let quotes := if isBlock then 3 else 1
    match stringRest isBlock (s.drop quotes) with
    | some (n, .quote) => some (.literal, quotes + n, strings)
    | some (n, .expression) => some (.templateStart, quotes + n, ⟨isBlock, 0⟩ :: strings)
    | none => none
  else none

/-- The part of an open string that the brace of its expression gives way to. -/
def templateLength (strings : List OpenString) (s : List Char) :
    Option (LexemeKind × Nat × List OpenString) :=
  match strings, s with
  | ⟨isBlock, 0⟩ :: outer, '\x7d' :: rest =>
    match stringRest isBlock rest with
    | some (n, .quote) => some (.templateStop, n + 1, outer)
    | some (n, .expression) => some (.templateMiddle, n + 1, strings)
    | none => none
  | _, _ => none

/-- Counts the brace at the front of `s`. -/
def countBrace (strings : List OpenString) (s : List Char) : List OpenString :=
  match strings, s.head? with
  | ⟨isBlock, n⟩ :: outer, some '\x7b' => ⟨isBlock, n + 1⟩ :: outer
  | ⟨isBlock, n⟩ :: outer, some '\x7d' => ⟨isBlock, n - 1⟩ :: outer
  | _, _ => strings

/-- The kind and length of the lexeme at the front of `s`, and the strings open behind it. -/
def measureLexeme (strings : List OpenString) (s : List Char) :
    LexemeKind × Nat × List OpenString :=
  ((commentLength s).map fun n => (LexemeKind.comment, n, strings))
    <|> templateLength strings s
    <|> stringLength strings s
    <|> ((characterLength s).map fun n => (LexemeKind.literal, n, strings))
    <|> ((numeralLength s).map fun n => (LexemeKind.literal, n, strings))
    <|> ((wordLength s).map fun n => (LexemeKind.word, n, strings))
    <|> ((symbolLength s).map fun n => (LexemeKind.symbol, n, countBrace strings s))
    |>.getD (.stray, 1, strings)

/-- The lexemes of the text `s` that begins at the place `p`. -/
def lexFrom (p : Place) (strings : List OpenString) : List Char → List Lexeme
  | [] => []
  | c :: rest =>
    if isSpace c then lexFrom (p.next c) strings rest
    else
      let (kind, length, strings) := measureLexeme strings (c :: rest)
      let text := c :: rest.take (length - 1)
      let stop := p.after text
      ⟨kind, String.ofList text, p, stop⟩ :: lexFrom stop strings (rest.drop (length - 1))
termination_by s => s.length
decreasing_by
  · simp
  · simp only [List.length_drop, List.length_cons]; omega

/-- The mark that may precede a text and is no part of it. -/
def byteOrderMark : Char := Char.ofNat 0xFEFF

/-- The lexemes of a text, with its comments. -/
def lex (s : List Char) : List Lexeme :=
  match s with
  | c :: rest =>
    if c = byteOrderMark then lexFrom (Place.origin.next c) [] rest
    else lexFrom .origin [] (c :: rest)
  | [] => []

end Java

end SymbolTable
