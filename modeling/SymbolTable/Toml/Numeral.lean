import SymbolTable.Regex.Basic
import SymbolTable.Text.Hex
import SymbolTable.Toml.Value

/-!
# TOML numbers and times

Their shapes as regular expressions, and the bounds that the shapes do not show: integers fit 64
bits with a sign, and a day exists in its month.
-/

namespace SymbolTable

namespace Toml

namespace Numeral

open Regex

def digit : Regex := range '0' '9'

def hexDigit : Regex := one ⟨false, [('0', '9'), ('a', 'f'), ('A', 'F')]⟩

/-- Digits, with single underscores between them. -/
def run (digit : Regex) : Regex := seq digit (star (seq (optional (char '_')) digit))

def sign : Regex := optional (among ['+', '-'])

/-- Zero, or digits that do not start with zero. -/
def whole : Regex :=
  either (char '0') (seq (range '1' '9') (star (seq (optional (char '_')) digit)))

def decimal : Regex := seq sign whole

def based : Regex :=
  any [all [char '0', char 'x', run hexDigit], all [char '0', char 'o', run (range '0' '7')],
    all [char '0', char 'b', run (range '0' '1')]]

def exponent : Regex := all [among ['e', 'E'], sign, run digit]

def fraction : Regex := seq (char '.') (run digit)

def word (s : String) : Regex := all (s.toList.map char)

def float : Regex :=
  either (all [sign, whole, either exponent (seq fraction (optional exponent))])
    (seq sign (either (word "inf") (word "nan")))

def twice (r : Regex) : Regex := seq r r

/-- Two digits up to the given number, of which `tens` has the smaller tens. -/
def upTo (tens : Char × Char) (last : Regex) : Regex :=
  either (seq (range tens.1 tens.2) digit) last

def hour : Regex := upTo ('0', '1') (seq (char '2') (range '0' '3'))

def minute : Regex := seq (range '0' '5') digit

def second : Regex := either minute (word "60")

def time : Regex :=
  all [hour, char ':', minute, char ':', second, optional (seq (char '.') (plus digit))]

def offset : Regex :=
  either (among ['Z', 'z']) (all [among ['+', '-'], hour, char ':', minute])

def month : Regex := either (seq (char '0') (range '1' '9')) (seq (char '1') (range '0' '2'))

def day : Regex :=
  any [seq (char '0') (range '1' '9'), seq (range '1' '2') digit, word "30", word "31"]

def date : Regex := all [twice (twice digit), char '-', month, char '-', day]

def moment : Regex :=
  either (seq date (optional (all [among ['T', 't', ' '], time, optional offset]))) time

/-! ## Bounds -/

def isLeapYear (year : Nat) : Bool := year % 4 = 0 && (year % 100 != 0 || year % 400 = 0)

def daysIn (year month : Nat) : Nat :=
  if month = 2 then (if isLeapYear year then 29 else 28)
  else if month ∈ [4, 6, 9, 11] then 30
  else 31

def decimalValue (digits : List Char) : Nat :=
  digits.foldl (fun n c => n * 10 + (c.toNat - '0'.toNat)) 0

/-- Whether the day that a moment starts with exists. A moment without a date has none. -/
def hasDay (text : List Char) : Bool :=
  if text.getD 2 ' ' = ':' then true
  else
    decimalValue ((text.drop 8).take 2) ≤
      daysIn (decimalValue (text.take 4)) (decimalValue ((text.drop 5).take 2))

def baseOf : Char → Nat
  | 'x' => 16
  | 'o' => 8
  | _ => 2

/-- The first number too large for 64 bits with a sign. -/
def integerBound : Nat := 0x8000000000000000

/-- Whether an integer fits 64 bits with a sign. -/
def fits (text : List Char) : Bool :=
  match text.filter (· ≠ '_') with
  | '-' :: digits => decimalValue digits ≤ integerBound
  | '+' :: digits => decimalValue digits < integerBound
  | '0' :: base :: digits =>
    digits.foldl (fun n c => n * baseOf base + (Text.hexValue c).getD 0) 0 < integerBound
  | digits => decimalValue digits < integerBound

/-- The number or time at the front, with the rest. -/
def read (s : List Char) : Option (Value × List Char) :=
  match moment.longest s with
  | some n =>
    if hasDay (s.take n) then some (.moment (String.ofList (s.take n)), s.drop n) else none
  | none =>
    match float.longest s with
    | some n => some (.number (String.ofList (s.take n)), s.drop n)
    | none =>
      match (either based decimal).longest s with
      | none => none
      | some n =>
        if fits (s.take n) then some (.number (String.ofList (s.take n)), s.drop n) else none

end Numeral

end Toml

end SymbolTable
