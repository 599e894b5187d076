/-!
# Blank characters

A character is blank when Unicode gives it the property `White_Space`. Trimming and splitting into
words go by that property; both work on character lists.
-/

namespace SymbolTable

namespace Text

/-- The ranges of `White_Space`, both ends included. -/
def blankRanges : List (Nat × Nat) :=
  [(0x09, 0x0D), (0x20, 0x20), (0x85, 0x85), (0xA0, 0xA0), (0x1680, 0x1680), (0x2000, 0x200A),
    (0x2028, 0x2029), (0x202F, 0x202F), (0x205F, 0x205F), (0x3000, 0x3000)]

def isBlank (c : Char) : Bool := blankRanges.any fun r => r.1 ≤ c.toNat ∧ c.toNat ≤ r.2

/-- The pieces of a list between the characters that `cut` takes; never empty. -/
def pieces (cut : Char → Bool) : List Char → List (List Char)
  | [] => [[]]
  | c :: rest =>
    if cut c then [] :: pieces cut rest
    else
      match pieces cut rest with
      | [] => [[c]]
      | piece :: more => (c :: piece) :: more

theorem pieces_ne_nil (cut : Char → Bool) (s : List Char) : pieces cut s ≠ [] := by
  cases s with
  | nil => exact List.cons_ne_nil _ _
  | cons c s =>
    rw [pieces]
    split
    · exact List.cons_ne_nil _ _
    · split <;> exact List.cons_ne_nil _ _

/-- The longest runs of characters that are not blank. -/
def words (s : List Char) : List (List Char) := (pieces isBlank s).filter (· ≠ [])

def trimStart (s : List Char) : List Char := s.dropWhile isBlank

def trim (s : List Char) : List Char := (trimStart (trimStart s).reverse).reverse

/-- The text without any blank character. -/
def squeeze (s : List Char) : List Char := s.filter fun c => !isBlank c

/-- The words of a text joined by single spaces. -/
def normalizeBlanks (s : String) : String :=
  " ".intercalate ((words s.toList).map String.ofList)

end Text

end SymbolTable
