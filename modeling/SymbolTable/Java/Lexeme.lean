/-!
# Places and lexemes

A place is a point between two characters of a source text. A lexeme is a piece of the text with the
places around it.
-/

namespace SymbolTable

namespace Java

structure Place where
  /-- The number of characters before the place. -/
  offset : Nat
  line : Nat
  /-- Counted from one, in bytes of the encoded line. -/
  column : Nat
  deriving DecidableEq, Repr, Inhabited

namespace Place

def origin : Place := ⟨0, 1, 1⟩

/-- The place behind the character `c`. -/
def next (p : Place) (c : Char) : Place :=
  if c = '\n' then ⟨p.offset + 1, p.line + 1, 1⟩
  else ⟨p.offset + 1, p.line, p.column + c.utf8Size⟩

/-- The place behind the characters of `s`. -/
def after (p : Place) (s : List Char) : Place := s.foldl next p

end Place

inductive LexemeKind where
  /-- An identifier or a keyword. -/
  | word
  /-- A number, character or string. -/
  | literal
  | symbol
  /-- The part of a string before its first embedded expression. -/
  | templateStart
  /-- The part of a string between two embedded expressions. -/
  | templateMiddle
  /-- The part of a string after its last embedded expression. -/
  | templateStop
  | comment
  /-- A character that no lexeme starts with. -/
  | stray
  deriving DecidableEq, Repr, Inhabited

structure Lexeme where
  kind : LexemeKind
  text : String
  start : Place
  stop : Place
  deriving DecidableEq, Repr, Inhabited

namespace Lexeme

def isComment (l : Lexeme) : Bool := l.kind = .comment

def isWord (l : Lexeme) : Bool := l.kind = .word

def isSymbol (l : Lexeme) (text : String) : Bool := l.kind = .symbol && l.text = text

end Lexeme

end Java

end SymbolTable
