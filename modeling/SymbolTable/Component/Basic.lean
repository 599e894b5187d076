import SymbolTable.Component.Kind

/-!
# Components

A component carries its kind, simple name and optional signature, which together are its `Symbol`,
a list of attributes, and links to its neighbours in a `Tree`. Merging and lookup compare symbols
and never the attributes or the links.
-/

namespace SymbolTable

/-- Position of a component in the node array of its tree. -/
abbrev NodeId := Nat

structure Attribute where
  kind : AttributeKind
  value : String
  deriving DecidableEq, Repr, Inhabited

namespace Attribute

def display (a : Attribute) : String := a.kind.label ++ "=" ++ a.value

/-- Attributes sort by the rank of their kind, then by value. -/
def precedes (a b : Attribute) : Bool :=
  a.kind.rank < b.kind.rank || a.kind.rank == b.kind.rank && a.value ≤ b.value

end Attribute

/-- What makes two components the same: overloads differ in `signature`. -/
structure Symbol where
  kind : ComponentKind
  value : String
  signature : Option String
  deriving DecidableEq, Repr, Inhabited

structure Component where
  kind : ComponentKind
  value : String
  signature : Option String := none
  attributes : List Attribute := []
  children : List NodeId := []
  parent : Option NodeId := none
  deriving DecidableEq, Repr, Inhabited

namespace Component

def symbol (c : Component) : Symbol := ⟨c.kind, c.value, c.signature⟩

def sameSymbol (a b : Component) : Bool := a.symbol = b.symbol

theorem sameSymbol_iff {a b : Component} : a.sameSymbol b ↔ a.symbol = b.symbol := by
  simp [sameSymbol]

/-- The component without its links. -/
def detached (c : Component) : Component := { c with children := [], parent := none }

def addAttribute (c : Component) (a : Attribute) : Component :=
  { c with attributes := c.attributes ++ [a] }

/-- Appends `a` unless an equal attribute is present. -/
def addAttributeIfAbsent (c : Component) (a : Attribute) : Component :=
  if a ∈ c.attributes then c else c.addAttribute a

def addAttributes (c : Component) (attributes : List Attribute) : Component :=
  attributes.foldl addAttribute c

/-- Unions `attributes` into those of `c`, which keep their order. -/
def uniteAttributes (c : Component) (attributes : List Attribute) : Component :=
  attributes.foldl addAttributeIfAbsent c

def hasAttribute (c : Component) (kind : AttributeKind) (value : String) : Bool :=
  c.attributes.any fun a => a.kind = kind ∧ a.value = value

def hasAttributeOfKind (c : Component) (kind : AttributeKind) : Bool :=
  c.attributes.any (·.kind = kind)

def hasModifier (c : Component) (word : String) : Bool := c.hasAttribute .modifier word

def attributesOfKind (c : Component) (kind : AttributeKind) : List Attribute :=
  c.attributes.filter (·.kind = kind)

def attributesOfValue (c : Component) (value : String) : List Attribute :=
  c.attributes.filter (·.value = value)

def display (c : Component) : String :=
  c.kind.label ++ " -> " ++ c.value ++ c.signature.getD ""

@[simp] theorem symbol_addAttribute (c : Component) (a : Attribute) :
    (c.addAttribute a).symbol = c.symbol := rfl

@[simp] theorem symbol_addAttributeIfAbsent (c : Component) (a : Attribute) :
    (c.addAttributeIfAbsent a).symbol = c.symbol := by
  unfold addAttributeIfAbsent; split <;> rfl

@[simp] theorem symbol_uniteAttributes (c : Component) (attributes : List Attribute) :
    (c.uniteAttributes attributes).symbol = c.symbol := by
  unfold uniteAttributes
  induction attributes generalizing c with
  | nil => rfl
  | cons a rest ih => rw [List.foldl_cons, ih, symbol_addAttributeIfAbsent]

end Component

end SymbolTable
