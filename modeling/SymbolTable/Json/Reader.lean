import SymbolTable.Json.Value
import SymbolTable.Text.Hex

/-!
# Reading JSON

The reader takes a character list and gives the value with the rest. It accepts strict JSON:
no leading zeros, no raw control characters in strings, surrogate escapes only in pairs.
`depth` bounds how deeply lists and objects may nest.
-/

namespace SymbolTable

namespace Json

def isSpace (c : Char) : Bool := c = ' ' ∨ c = '\n' ∨ c = '\t' ∨ c = '\r'

def skipSpace (s : List Char) : List Char := s.dropWhile isSpace

def shortEscape (c : Char) : Option Char :=
  match c with
  | '"' => some '"'
  | '\\' => some '\\'
  | '/' => some '/'
  | 'b' => some (Char.ofNat 8)
  | 'f' => some (Char.ofNat 12)
  | 'n' => some '\n'
  | 'r' => some '\r'
  | 't' => some '\t'
  | _ => none

def isHighSurrogate (n : Nat) : Bool := 0xD800 ≤ n ∧ n < 0xDC00

def isLowSurrogate (n : Nat) : Bool := 0xDC00 ≤ n ∧ n < 0xE000

/-- The characters up to the closing quote, collected in reverse. -/
def readString : List Char → List Char → Option (String × List Char)
  | done, '"' :: rest => some (String.ofList done.reverse, rest)
  | done, '\\' :: 'u' :: a :: b :: c :: d :: '\\' :: 'u' :: e :: f :: g :: h :: rest =>
    match Text.hexNumber [a, b, c, d] with
    | none => none
    | some n =>
      if isHighSurrogate n then
        match Text.hexNumber [e, f, g, h] with
        | none => none
        | some m =>
          if isLowSurrogate m then
            readString (Char.ofNat (0x10000 + (n - 0xD800) * 0x400 + (m - 0xDC00)) :: done) rest
          else none
      else if isLowSurrogate n then none
      else readString (Char.ofNat n :: done) ('\\' :: 'u' :: e :: f :: g :: h :: rest)
  | done, '\\' :: 'u' :: a :: b :: c :: d :: rest =>
    match Text.hexNumber [a, b, c, d] with
    | none => none
    | some n =>
      if isHighSurrogate n ∨ isLowSurrogate n then none
      else readString (Char.ofNat n :: done) rest
  | done, '\\' :: c :: rest =>
    match shortEscape c with
    | none => none
    | some e => readString (e :: done) rest
  | done, c :: rest => if c.toNat < 32 ∨ c = '\\' then none else readString (c :: done) rest
  | _, [] => none

/-- Splits off the digits at the front. -/
def readDigits (s : List Char) : List Char × List Char :=
  (s.takeWhile Char.isDigit, s.dropWhile Char.isDigit)

def digitsValue (digits : List Char) : Nat :=
  digits.foldl (fun n c => n * 10 + (c.toNat - '0'.toNat)) 0

/-- An optional fraction and exponent: their text and the rest. -/
def readFraction (s : List Char) : Option (List Char × List Char) := do
  let (fraction, s) ←
    match s with
    | '.' :: rest =>
      let (digits, rest) := readDigits rest
      if digits.isEmpty then none else some ('.' :: digits, rest)
    | _ => some ([], s)
  match s with
  | e :: rest =>
    if e = 'e' ∨ e = 'E' then
      let (sign, rest) :=
        match rest with
        | c :: more => if c = '+' ∨ c = '-' then ([c], more) else ([], rest)
        | [] => ([], [])
      let (digits, rest) := readDigits rest
      if digits.isEmpty then none else some (fraction ++ e :: sign ++ digits, rest)
    else some (fraction, s)
  | [] => some (fraction, s)

def readNumber (s : List Char) : Option (Value × List Char) := do
  let (sign, s) :=
    match s with
    | '-' :: rest => (['-'], rest)
    | _ => ([], s)
  let (digits, s) := readDigits s
  if digits.isEmpty ∨ (digits.head? = some '0' ∧ digits.length > 1) then none
  else do
    let (fraction, s) ← readFraction s
    if sign.isEmpty ∧ fraction.isEmpty then some (.natural (digitsValue digits), s)
    else some (.number (String.ofList (sign ++ digits ++ fraction)), s)

mutual
def readValue : Nat → Nat → List Char → Option (Value × List Char)
  | 0, _, _ => none
  | fuel + 1, depth, s =>
    match skipSpace s with
    | '"' :: rest => (readString [] rest).map fun (text, rest) => (.string text, rest)
    | '[' :: rest =>
      if depth = 0 then none
      else
        match skipSpace rest with
        | ']' :: rest => some (.array [], rest)
        | _ => (readItems fuel (depth - 1) rest).map fun (items, rest) => (.array items, rest)
    | '\x7b' :: rest =>
      if depth = 0 then none
      else
        match skipSpace rest with
        | '\x7d' :: rest => some (.object [], rest)
        | _ => (readFields fuel (depth - 1) rest).map fun (fields, rest) => (.object fields, rest)
    | 'n' :: 'u' :: 'l' :: 'l' :: rest => some (.null, rest)
    | 't' :: 'r' :: 'u' :: 'e' :: rest => some (.bool true, rest)
    | 'f' :: 'a' :: 'l' :: 's' :: 'e' :: rest => some (.bool false, rest)
    | rest => readNumber rest

def readItems : Nat → Nat → List Char → Option (List Value × List Char)
  | 0, _, _ => none
  | fuel + 1, depth, s => do
    let (v, s) ← readValue fuel depth s
    match skipSpace s with
    | ',' :: rest => (readItems fuel depth rest).map fun (items, rest) => (v :: items, rest)
    | ']' :: rest => some ([v], rest)
    | _ => none

def readFields : Nat → Nat → List Char → Option (List (String × Value) × List Char)
  | 0, _, _ => none
  | fuel + 1, depth, s =>
    match skipSpace s with
    | '"' :: rest => do
      let (name, rest) ← readString [] rest
      match skipSpace rest with
      | ':' :: rest => do
        let (v, rest) ← readValue fuel depth rest
        match skipSpace rest with
        | ',' :: rest =>
          (readFields fuel depth rest).map fun (fields, rest) => ((name, v) :: fields, rest)
        | '\x7d' :: rest => some ([(name, v)], rest)
        | _ => none
      | _ => none
    | _ => none
end

/-- Reads a whole text that nests at most `depth` levels. -/
def readWithin (depth : Nat) (text : String) : Option Value :=
  let s := text.toList
  match readValue (2 * s.length + 2) depth s with
  | some (v, rest) => if (skipSpace rest).isEmpty then some v else none
  | none => none

/-- Reads a whole text of any depth. -/
def read (text : String) : Option Value := readWithin text.length text

end Json

end SymbolTable
