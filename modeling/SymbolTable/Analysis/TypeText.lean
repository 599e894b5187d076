import SymbolTable.Text.Blank
import SymbolTable.Text.Replace

/-!
# Erasure of type texts

A type as written in a declaration, reduced to the name that is looked up: type arguments, array
brackets and the mark of a variadic parameter go, and of what is left the last word counts, so that
annotations in front go too.
-/

namespace SymbolTable

namespace TypeText

/-- The characters outside of angle brackets. A closing bracket without an opening one is lost. -/
def outsideArguments : Nat → List Char → List Char
  | _, [] => []
  | depth, c :: rest =>
    if c = '<' then outsideArguments (depth + 1) rest
    else if c = '>' then outsideArguments (depth - 1) rest
    else if depth = 0 then c :: outsideArguments depth rest
    else outsideArguments depth rest

def erase (text : String) : String :=
  let bare :=
    Text.replace "...".toList [] (Text.replace "[]".toList [] (outsideArguments 0 text.toList))
  String.ofList ((Text.words bare).getLastD [])

/-- The parts of a dotted name, without empty ones. -/
def segments (name : String) : List String :=
  ((Text.pieces (· = '.') name.toList).filter (· ≠ [])).map String.ofList

end TypeText

end SymbolTable
