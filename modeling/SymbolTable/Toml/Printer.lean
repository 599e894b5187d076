import SymbolTable.Text.Hex

/-!
# Writing TOML

A string is written in the first of these forms that shows it as it is: in quotes, in single quotes,
in three quotes, in three single quotes. If none does, it is written in quotes with escapes, in
three if it has line breaks. Lists of more than one item take a line for each item.
-/

namespace SymbolTable

namespace Toml

/-- What decides on the form of a string. -/
structure StringTraits where
  hasControl : Bool
  hasBackslash : Bool
  hasBreak : Bool
  /-- The longest run of quotes. -/
  quotes : Nat
  /-- The longest run of single quotes. -/
  singleQuotes : Nat

/-- The length of the longest run of `c`, with `run` of it directly before. -/
def longestRun (c : Char) : (run : Nat) → List Char → Nat
  | run, [] => run
  | run, d :: rest =>
    if d = c then longestRun c (run + 1) rest else max run (longestRun c 0 rest)

/-- A control character other than a tab or a line break. -/
def isControl (c : Char) : Bool := (c.toNat < 32 || c.toNat = 127) && c != '\t' && c != '\n'

def StringTraits.of (s : List Char) : StringTraits where
  hasControl := s.any isControl
  hasBackslash := s.contains '\\'
  hasBreak := s.contains '\n'
  quotes := longestRun '"' 0 s
  singleQuotes := longestRun '\'' 0 s

def escapeCode (n : Nat) : List Char :=
  ['\\', 'u', '0', '0', (Text.hexDigit (n / 16)).toUpper, (Text.hexDigit (n % 16)).toUpper]

/-- A character between quotes. -/
def escapeChar (multiline : Bool) (c : Char) : List Char :=
  if c = '\\' then ['\\', '\\']
  else if c = '\t' then ['\\', 't']
  else if c = '\r' then ['\\', 'r']
  else if c = '\n' then (if multiline then ['\n'] else ['\\', 'n'])
  else if c.toNat = 8 then ['\\', 'b']
  else if c.toNat = 12 then ['\\', 'f']
  else if c.toNat < 32 ∨ c.toNat = 127 then escapeCode c.toNat
  else [c]

/-- The text between quotes, with `run` quotes directly before. More quotes than `most` in a row are
parted by escapes. -/
def escapeText (multiline : Bool) (most : Nat) : (run : Nat) → List Char → List Char
  | _, [] => []
  | run, c :: rest =>
    if c = '"' then
      if run < most then '"' :: escapeText multiline most (run + 1) rest
      else '\\' :: '"' :: escapeText multiline most 0 rest
    else escapeChar multiline c ++ escapeText multiline most 0 rest

def basic (s : List Char) : List Char := '"' :: (escapeText false 0 0 s ++ ['"'])

/-- A string of several lines starts on a line of its own. -/
def opening (t : StringTraits) : List Char := if t.hasBreak then ['\n'] else []

def multilineBasic (t : StringTraits) (s : List Char) : List Char :=
  "\"\"\"".toList ++ opening t ++ escapeText true 2 0 s ++ "\"\"\"".toList

def literal (s : List Char) : List Char := '\'' :: (s ++ ['\''])

def multilineLiteral (t : StringTraits) (s : List Char) : List Char :=
  "'''".toList ++ opening t ++ s ++ "'''".toList

def quoteChars (s : List Char) : List Char :=
  let t := StringTraits.of s
  if !t.hasControl && !t.hasBackslash && !t.hasBreak && t.quotes = 0 then basic s
  else if !t.hasControl && !t.hasBreak && t.singleQuotes = 0 then literal s
  else if !t.hasControl && !t.hasBackslash && t.quotes ≤ 2 then multilineBasic t s
  else if !t.hasControl && t.singleQuotes ≤ 2 then multilineLiteral t s
  else if t.hasBreak then multilineBasic t s
  else basic s

def quote (s : String) : String := String.ofList (quoteChars s.toList)

/-- A list of strings. -/
def quoteList : List String → String
  | [] => "[]"
  | [s] => "[" ++ quote s ++ "]"
  | ss => "[" ++ String.join (ss.map fun s => "\n    " ++ quote s ++ ",") ++ "\n]"

end Toml

end SymbolTable
