import SymbolTable.Json.Value
import SymbolTable.Text.Replace

/-!
# Naming

How an analysis writes names: the delimiter of coordinates, the separator between a type and the
type around it, and the package of files that declare none.
-/

namespace SymbolTable

open Json (Value)

structure Naming where
  delimiter : String := "."
  nestedSeparator : String := "$"
  defaultPackage : String := "default"
  deriving DecidableEq, Repr, Inhabited

namespace Naming

/-- The coordinate that a dotted name spells. -/
def coordinateOf (n : Naming) (dotted : String) : String :=
  Text.replaceChar '.' n.delimiter dotted

def toJson (n : Naming) : Value :=
  .object
    [("unique_delimiter", .string n.delimiter),
      ("nested_type_separator", .string n.nestedSeparator),
      ("default_package", .string n.defaultPackage)]

/-- Reads a text that may be left out. -/
def textOr (default : String) : Option Value → Option String
  | none => some default
  | some v => v.text?

def ofJson? (v : Value) : Option Naming := do
  match ← v.record? ["unique_delimiter", "nested_type_separator", "default_package"] 0 with
  | [delimiter, nested, package] =>
    let delimiter ← textOr "." delimiter
    let nestedSeparator ← textOr "$" nested
    let defaultPackage ← textOr "default" package
    return { delimiter, nestedSeparator, defaultPackage }
  | _ => none

end Naming

end SymbolTable
