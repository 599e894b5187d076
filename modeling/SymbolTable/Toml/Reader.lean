import SymbolTable.Toml.Numeral
import SymbolTable.Toml.Table

/-!
# Reading TOML

A document is a list of statements, one a line. The reader takes a character list and gives what it
read with the rest. Lists and tables between braces nest up to `maxDepth` levels, and a key has at
most that many parts.
-/

namespace SymbolTable

namespace Toml

def maxDepth : Nat := 79

/-! ## Blanks and comments -/

def isGap (c : Char) : Bool := c = ' ' ∨ c = '\t'

/-- Control characters other than tabs stand nowhere in a document. -/
def isText (c : Char) : Bool := c = '\t' ∨ (32 ≤ c.toNat ∧ c.toNat ≠ 127)

def skipGaps (s : List Char) : List Char := s.dropWhile isGap

/-- The rest behind a line break. -/
def lineBreak? : List Char → Option (List Char)
  | '\n' :: rest => some rest
  | '\r' :: '\n' :: rest => some rest
  | _ => none

/-- Skips what may stand behind a statement on its line, and the end of the line. -/
def endLine (s : List Char) : Option (List Char) :=
  let s :=
    match skipGaps s with
    | '#' :: rest => rest.dropWhile isText
    | s => s
  if s = [] then some [] else lineBreak? s

/-- Skips blanks, line breaks and comments; the flag tells whether a comment is open. -/
def skipLines : Bool → List Char → List Char
  | _, [] => []
  | _, '\n' :: rest => skipLines false rest
  | _, '\r' :: '\n' :: rest => skipLines false rest
  | true, c :: rest => if isText c then skipLines true rest else c :: rest
  | false, c :: rest =>
    if isGap c then skipLines false rest
    else if c = '#' then skipLines true rest
    else c :: rest

/-! ## Strings -/

/-- How a string is quoted: by which quote, by three of them or one, and with escapes or not. -/
structure Quoting where
  quote : Char
  multiline : Bool

def Quoting.hasEscapes (q : Quoting) : Bool := q.quote = '"'

/-- If a string ends here, how many quotes still belong to it and what follows its closing quotes.
Up to two quotes may stand directly before the three that close a string of several lines. -/
def Quoting.closing? (q : Quoting) (s : List Char) : Option (Nat × List Char) :=
  let run := (s.takeWhile (· = q.quote)).length
  if q.multiline then
    if run < 3 then none else some (min (run - 3) 2, s.drop (min (run - 3) 2 + 3))
  else if run = 0 then none
  else some (0, s.drop 1)

def escapedNumber (count : Nat) (s : List Char) : Option (Char × Nat) :=
  if (s.take count).length < count then none
  else
    match Text.hexNumber (s.take count) with
    | none => none
    | some n => if n.isValidChar then some (Char.ofNat n, count + 1) else none

/-- The character that an escape stands for and how many characters follow its backslash. -/
def escape? : List Char → Option (Char × Nat)
  | 'u' :: rest => escapedNumber 4 rest
  | 'U' :: rest => escapedNumber 8 rest
  | 'b' :: _ => some (Char.ofNat 8, 1)
  | 't' :: _ => some ('\t', 1)
  | 'n' :: _ => some ('\n', 1)
  | 'f' :: _ => some (Char.ofNat 12, 1)
  | 'r' :: _ => some ('\r', 1)
  | '"' :: _ => some ('"', 1)
  | '\\' :: _ => some ('\\', 1)
  | _ => none

/-- Whether a line ends here but for blanks. -/
def endsLine (s : List Char) : Bool := (lineBreak? (skipGaps s)).isSome

/-- The characters up to the closing quotes, collected in reverse. With `skip` characters of an
escape to drop; in a `gap` behind a backslash at a line end, blanks and line breaks are dropped. -/
def readQuoted (q : Quoting) : (skip : Nat) → (gap : Bool) → (done : List Char) → List Char →
    Option (String × List Char)
  | skip + 1, gap, done, _ :: rest => readQuoted q skip gap done rest
  | _ + 1, _, _, [] => none
  | 0, gap, done, s =>
    match q.closing? s with
    | some (quotes, rest) =>
      some (String.ofList (done.reverse ++ List.replicate quotes q.quote), rest)
    | none =>
      match s with
      | [] => none
      | c :: rest =>
        if c = '\n' then
          if !q.multiline then none
          else readQuoted q 0 gap (if gap then done else '\n' :: done) rest
        else if c = '\r' then
          if q.multiline && rest.head? = some '\n' then readQuoted q 0 gap done rest else none
        else if c = '\\' && q.hasEscapes then
          if q.multiline && endsLine rest then readQuoted q 0 true done rest
          else
            match escape? rest with
            | some (e, skip) => readQuoted q skip false (e :: done) rest
            | none => none
        else if gap && isGap c then readQuoted q 0 true done rest
        else if isText c then readQuoted q 0 false (c :: done) rest
        else none

/-- A line break directly behind the opening quotes is no part of a string of several lines. -/
def dropBreak (s : List Char) : List Char := (lineBreak? s).getD s

def readString : List Char → Option (String × List Char)
  | '"' :: '"' :: '"' :: rest => readQuoted ⟨'"', true⟩ 0 false [] (dropBreak rest)
  | '\'' :: '\'' :: '\'' :: rest => readQuoted ⟨'\'', true⟩ 0 false [] (dropBreak rest)
  | '"' :: rest => readQuoted ⟨'"', false⟩ 0 false [] rest
  | '\'' :: rest => readQuoted ⟨'\'', false⟩ 0 false [] rest
  | _ => none

/-! ## Keys -/

def isBare (c : Char) : Bool := c.isAlphanum ∨ c = '-' ∨ c = '_'

/-- One part of a dotted key. Strings of several lines are no keys. -/
def readName : List Char → Option (String × List Char)
  | '"' :: rest => readQuoted ⟨'"', false⟩ 0 false [] rest
  | '\'' :: rest => readQuoted ⟨'\'', false⟩ 0 false [] rest
  | s =>
    match s.takeWhile isBare with
    | [] => none
    | name => some (String.ofList name, s.dropWhile isBare)

def readParts : Nat → List Char → Option (List String × List Char)
  | 0, _ => none
  | fuel + 1, s => do
    let (name, s) ← readName (skipGaps s)
    match skipGaps s with
    | '.' :: rest => (readParts fuel rest).map fun (path, rest) => (name :: path, rest)
    | rest => some ([name], rest)

def readKey (s : List Char) : Option (List String × List Char) := readParts maxDepth s

/-- A key and the equals sign behind it. -/
def readAssigned (s : List Char) : Option (List String × List Char) := do
  match ← readKey s with
  | (path, '=' :: rest) => some (path, skipGaps rest)
  | _ => none

/-! ## Values -/

mutual
def readValue : Nat → Nat → List Char → Option (Value × List Char)
  | 0, _, _ => none
  | fuel + 1, depth, s =>
    match s with
    | 't' :: 'r' :: 'u' :: 'e' :: rest => some (.boolean true, rest)
    | 'f' :: 'a' :: 'l' :: 's' :: 'e' :: rest => some (.boolean false, rest)
    | '[' :: rest =>
      if depth = 0 then none
      else (readItems fuel (depth - 1) rest).map fun (items, rest) => (.array items, rest)
    | '\x7b' :: rest =>
      if depth = 0 then none
      else
        match skipGaps rest with
        | '\x7d' :: rest => some (.table [], rest)
        | rest => do
          let (assignments, rest) ← readAssignments fuel (depth - 1) rest
          let table ← ofAssignments assignments
          return (table, rest)
    | _ =>
      match readString s with
      | some (text, rest) => some (.string text, rest)
      | none => Numeral.read s

/-- The items of an array up to its closing bracket. A comma may stand behind the last. -/
def readItems : Nat → Nat → List Char → Option (List Value × List Char)
  | 0, _, _ => none
  | fuel + 1, depth, s =>
    match skipLines false s with
    | ']' :: rest => some ([], rest)
    | s => do
      let (v, s) ← readValue fuel depth s
      match skipLines false s with
      | ',' :: rest => (readItems fuel depth rest).map fun (items, rest) => (v :: items, rest)
      | ']' :: rest => some ([v], rest)
      | _ => none

/-- The assignments up to the closing brace, on one line. -/
def readAssignments : Nat → Nat → List Char → Option (List (List String × Value) × List Char)
  | 0, _, _ => none
  | fuel + 1, depth, s => do
    let (path, s) ← readAssigned s
    let (v, s) ← readValue fuel depth s
    match skipGaps s with
    | ',' :: rest =>
      (readAssignments fuel depth rest).map fun (more, rest) => ((path, v) :: more, rest)
    | '\x7d' :: rest => some ([(path, v)], rest)
    | _ => none
end

/-! ## Documents -/

/-- One statement and the end of its line. -/
def readStatement (s : List Char) : Option (Statement × List Char) := do
  match s with
  | '[' :: '[' :: rest =>
    match ← readKey rest with
    | (path, ']' :: ']' :: rest) => return (.openItem path, ← endLine rest)
    | _ => none
  | '[' :: rest =>
    match ← readKey rest with
    | (path, ']' :: rest) => return (.openTable path, ← endLine rest)
    | _ => none
  | s =>
    let (path, s) ← readAssigned s
    let (v, s) ← readValue (2 * s.length + 2) maxDepth s
    return (.assign path v, ← endLine s)

def readStatements : Nat → List Char → Option (List Statement)
  | 0, _ => none
  | fuel + 1, s =>
    match skipLines false s with
    | [] => some []
    | s => do
      let (statement, s) ← readStatement s
      (readStatements fuel s).map (statement :: ·)

/-- Reads a whole document. A byte order mark at the front does not count. -/
def read (text : String) : Option Value :=
  let s :=
    match text.toList with
    | '\uFEFF' :: rest => rest
    | s => s
  (readStatements (s.length + 1) s).bind ofStatements

end Toml

end SymbolTable
