/-!
# JSON values

An object keeps its fields in the order they were written, repeated names included, so that output
follows the order of the encoder and a reader can refuse a repetition. A number that is not a
natural one is kept as its text: no format of this library has a field for it.
-/

namespace SymbolTable

namespace Json

inductive Value where
  | null
  | bool (b : Bool)
  | natural (n : Nat)
  | number (text : String)
  | string (s : String)
  | array (items : List Value)
  | object (fields : List (String × Value))
  deriving Repr, Inhabited

/-- The largest number that fits an unsigned 64-bit field. -/
def maxNatural : Nat := 0xFFFFFFFFFFFFFFFF

namespace Value

def text? : Value → Option String
  | .string s => some s
  | _ => none

def bool? : Value → Option Bool
  | .bool b => some b
  | _ => none

def natural? : Value → Option Nat
  | .natural n => if n ≤ maxNatural then some n else none
  | _ => none

def items? : Value → Option (List Value)
  | .array items => some items
  | _ => none

/-- The field of an object with the given name, the last one if it is repeated. -/
def field? : Value → String → Option Value
  | .object fields, name => (fields.reverse.find? (·.1 = name)).map (·.2)
  | _, _ => none

/-- `null` stands for an absent value. -/
def optional? {α : Type} (decode : Value → Option α) : Value → Option (Option α)
  | .null => some none
  | v => (decode v).map some

def list? {α : Type} (decode : Value → Option α) (v : Value) : Option (List α) :=
  v.items?.bind fun items => items.mapM decode

/-- Binds the fields of a record. An object binds by name, ignores other names and may not repeat a
name of the record; an array binds by position and holds at least `least` values. -/
def record? (names : List String) (least : Nat) : Value → Option (List (Option Value))
  | .object fields =>
    names.mapM fun name =>
      match fields.filter (·.1 = name) with
      | [] => some none
      | [field] => some (some field.2)
      | _ => none
  | .array items =>
    if least ≤ items.length ∧ items.length ≤ names.length then
      some ((List.range names.length).map fun i => items[i]?)
    else none
  | _ => none

/-- The case of an enumeration: a string names a case without content, and an object with one field
names a case and gives its content. -/
def case? : Value → Option (String × Value)
  | .string name => some (name, .null)
  | .object [(name, content)] => some (name, content)
  | _ => none

mutual
/-- How many levels of lists and objects a value has, itself included. -/
def depth : Value → Nat
  | .array items => depthOfItems items + 1
  | .object fields => depthOfFields fields + 1
  | _ => 1

def depthOfItems : List Value → Nat
  | [] => 0
  | v :: rest => max v.depth (depthOfItems rest)

def depthOfFields : List (String × Value) → Nat
  | [] => 0
  | (_, v) :: rest => max v.depth (depthOfFields rest)
end

def ofOption {α : Type} (encode : α → Value) : Option α → Value
  | none => .null
  | some a => encode a

def ofTexts (texts : List String) : Value := .array (texts.map .string)

end Value

end Json

end SymbolTable
