import SymbolTable.Regex.Basic

/-!
# The text of an expression

Expressions as they are written for whole texts: between `^` and `$` stand characters, dots, classes
of all characters but one, and stars behind one of these. A character with a meaning of its own
stands for itself behind a backslash. Groups, choices, other classes and other counts are not read.
-/

namespace SymbolTable

namespace Regex

/-- The characters that may have a meaning of their own. -/
def metaCharacters : List Char := "\\.+*?()|[]\x7b\x7d^$#&-~".toList

def escapeChar (c : Char) : List Char := if c ∈ metaCharacters then ['\\', c] else [c]

/-- The text that stands for exactly the given characters. -/
def escape (s : List Char) : List Char := s.flatMap escapeChar

/-- Reads what stands behind `^`; `front` is what was read so far, the last part first. -/
def readFrom : List Regex → List Char → Option Regex
  | _, [] => none
  | front, ['$'] => some (all front.reverse)
  | front, '\\' :: c :: rest =>
    if c ∈ metaCharacters then readFrom (char c :: front) rest else none
  | front, '[' :: '^' :: c :: ']' :: rest =>
    if c ∈ metaCharacters then none else readFrom (one (.except c) :: front) rest
  | front, '.' :: rest => readFrom (one (.except '\n') :: front) rest
  | one k :: front, '*' :: rest => readFrom (star (one k) :: front) rest
  | front, c :: rest => if c ∈ metaCharacters then none else readFrom (char c :: front) rest

/-- The expression that a text stands for. -/
def read? : List Char → Option Regex
  | '^' :: rest => readFrom [] rest
  | _ => none

end Regex

end SymbolTable
