/-!
# TOML values

Numbers and times are kept as their text: no format of this library has a field for them.
-/

namespace SymbolTable

namespace Toml

inductive Value where
  | string (s : String)
  | boolean (b : Bool)
  | number (text : String)
  /-- A date, a time or both. -/
  | moment (text : String)
  | array (items : List Value)
  | table (entries : List (String × Value))
  deriving Repr, Inhabited

namespace Value

def text? : Value → Option String
  | .string s => some s
  | _ => none

def texts? : Value → Option (List String)
  | .array items => items.mapM text?
  | _ => none

/-- Binds the fields of a record. A table binds by name and ignores other names, an array binds by
position and ignores what is left over, and a moment binds nothing. -/
def record? (names : List String) : Value → Option (List (Option Value))
  | .table entries => some (names.map fun name => (entries.find? (·.1 = name)).map (·.2))
  | .array items => some ((List.range names.length).map fun i => items[i]?)
  | .moment _ => some (names.map fun _ => none)
  | _ => none

/-- A field that has a default when it is absent. -/
def fieldOr {α : Type} (default : α) (decode : Value → Option α) : Option Value → Option α
  | none => some default
  | some v => decode v

end Value

end Toml

end SymbolTable
