import SymbolTable.Regex.Basic

/-!
# Numerals

The shapes of number literals: integers of four bases, decimal and hexadecimal floating point
numbers, all with underscores between their digits.
-/

namespace SymbolTable

namespace Java

namespace Numeral

open Regex

def decimalDigit : Regex := range '0' '9'

def octalDigit : Regex := range '0' '7'

def binaryDigit : Regex := range '0' '1'

def hexDigit : Regex := one ⟨false, [('0', '9'), ('a', 'f'), ('A', 'F')]⟩

def underscore : Regex := char '_'

/-- Runs of `digit` with `gap` between two of them. -/
def grouped (digit gap : Regex) : Regex := seq (plus digit) (star (seq gap (plus digit)))

/-- Zero, or digits that do not start with zero. -/
def digits : Regex :=
  either (char '0')
    (seq (range '1' '9')
      (optional (seq (optional underscore) (grouped decimalDigit (plus underscore)))))

def decimalDigits : Regex := grouped decimalDigit underscore

def hexDigits : Regex := grouped hexDigit underscore

def longSuffix : Regex := optional (among ['l', 'L'])

def floatSuffix : Regex := among ['f', 'F', 'd', 'D']

def sign : Regex := optional (among ['+', '-'])

def hexMark : Regex := seq (char '0') (among ['x', 'X'])

def decimalInteger : Regex := seq digits longSuffix

def hexInteger : Regex := all [hexMark, hexDigits, longSuffix]

def octalInteger : Regex :=
  all [char '0', optional (among ['o', 'O']), grouped octalDigit underscore, longSuffix]

def binaryInteger : Regex :=
  all [char '0', among ['b', 'B'], grouped binaryDigit underscore, longSuffix]

def exponent : Regex := all [among ['e', 'E'], sign, decimalDigits]

def decimalFloat : Regex :=
  any [all [decimalDigits, char '.', optional decimalDigits, optional exponent,
        optional floatSuffix],
    all [char '.', decimalDigits, optional exponent, optional floatSuffix],
    all [digits, among ['e', 'E', 'p', 'P'], sign, decimalDigits, optional floatSuffix],
    all [digits, optional exponent, floatSuffix]]

def hexFloat : Regex :=
  all [hexMark,
    either (seq hexDigits (optional (char '.')))
      (all [optional hexDigits, char '.', hexDigits]),
    optional (all [among ['e', 'E', 'p', 'P'], sign, digits, optional floatSuffix])]

def numeral : Regex :=
  any [decimalInteger, hexInteger, octalInteger, binaryInteger, decimalFloat, hexFloat]

end Numeral

end Java

end SymbolTable
