/-!
# Replacing occurrences

Occurrences are found from the left and do not overlap. The pattern is not empty.
-/

namespace SymbolTable

namespace Text

/-- With `skip` characters of an occurrence still to drop. -/
def replaceFrom (pattern replacement : List Char) : Nat → List Char → List Char
  | _, [] => []
  | skip + 1, _ :: rest => replaceFrom pattern replacement skip rest
  | 0, c :: rest =>
    if pattern.isPrefixOf (c :: rest) then
      replacement ++ replaceFrom pattern replacement (pattern.length - 1) rest
    else c :: replaceFrom pattern replacement 0 rest

def replace (pattern replacement s : List Char) : List Char :=
  replaceFrom pattern replacement 0 s

/-- Writes `word` for each character `c` of a text. -/
def replaceChar (c : Char) (word : String) (s : String) : String :=
  String.ofList (s.toList.flatMap fun d => if d = c then word.toList else [d])

end Text

end SymbolTable
