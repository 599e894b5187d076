import SymbolTable.Component.Basic
import SymbolTable.Json.Value

/-!
# Components as JSON

A kind is written as its tag, an import kind as an object under the tag `import`. A component leaves
out an absent signature or parent and empty lists of attributes and children; read back, what is
left out takes these values.
-/

namespace SymbolTable

open Json (Value)

namespace ImportKind

def tag : ImportKind → String
  | .single => "single"
  | .onDemand => "on_demand"
  | .static => "static"
  | .staticOnDemand => "static_on_demand"

def ofTag? : String → Option ImportKind
  | "single" => some .single
  | "on_demand" => some .onDemand
  | "static" => some .static
  | "static_on_demand" => some .staticOnDemand
  | _ => none

def toJson (kind : ImportKind) : Value := .string kind.tag

def ofJson? (v : Value) : Option ImportKind :=
  match v.case? with
  | some (name, .null) => ofTag? name
  | _ => none

end ImportKind

namespace ComponentKind

/-- The tag of each kind that carries nothing. -/
def plainTags : List (String × ComponentKind) :=
  [("root", .root), ("package", .package), ("class", .classType), ("interface", .interfaceType),
    ("enum", .enumType), ("enum_constant", .enumConstant), ("annotation", .annotationType),
    ("constructor", .constructor), ("default_constructor", .defaultConstructor),
    ("method", .method), ("field", .field), ("parameter", .parameter),
    ("type_parameter", .typeParameter)]

def plainTag (kind : ComponentKind) : String :=
  ((plainTags.find? (·.2 = kind)).map (·.1)).getD ""

def toJson : ComponentKind → Value
  | .importOf kind => .object [("import", kind.toJson)]
  | kind => .string kind.plainTag

def ofJson? (v : Value) : Option ComponentKind :=
  match v.case? with
  | some ("import", content) => (ImportKind.ofJson? content).map .importOf
  | some (name, .null) => (plainTags.find? (·.1 = name)).map (·.2)
  | _ => none

end ComponentKind

namespace AttributeKind

def tags : List (String × AttributeKind) :=
  [("source_name", .sourceName), ("start_line", .startLine), ("start_column", .startColumn),
    ("stop_line", .stopLine), ("stop_column", .stopColumn), ("modifier", .modifier),
    ("annotated", .annotated), ("extends_type", .extendsType),
    ("implements_type", .implementsType), ("local_class", .localClass), ("variadic", .variadic),
    ("declared_type", .declaredType), ("return_type", .returnType)]

def tag (kind : AttributeKind) : String := ((tags.find? (·.2 = kind)).map (·.1)).getD ""

def toJson (kind : AttributeKind) : Value := .string kind.tag

def ofJson? (v : Value) : Option AttributeKind :=
  match v.case? with
  | some (name, .null) => (tags.find? (·.1 = name)).map (·.2)
  | _ => none

end AttributeKind

namespace Attribute

def toJson (a : Attribute) : Value :=
  .object [("kind", a.kind.toJson), ("value", .string a.value)]

def ofJson? (v : Value) : Option Attribute := do
  match ← v.record? ["kind", "value"] 2 with
  | [some kind, some value] =>
    let kind ← AttributeKind.ofJson? kind
    let value ← value.text?
    return ⟨kind, value⟩
  | _ => none

end Attribute

namespace Component

def toJson (c : Component) : Value :=
  .object <|
    [("kind", c.kind.toJson), ("value", .string c.value)] ++
    (match c.signature with
      | none => []
      | some signature => [("signature", .string signature)]) ++
    (if c.attributes.isEmpty then []
      else [("attributes", .array (c.attributes.map Attribute.toJson))]) ++
    (if c.children.isEmpty then [] else [("children", .array (c.children.map .natural))]) ++
    (match c.parent with
      | none => []
      | some parent => [("parent", .natural parent)])

/-- Decodes a field that may be left out. -/
def fieldOr {α : Type} (default : α) (decode : Value → Option α) : Option Value → Option α
  | none => some default
  | some v => decode v

def ofJson? (v : Value) : Option Component := do
  match ← v.record? ["kind", "value", "signature", "attributes", "children", "parent"] 2 with
  | [some kind, some value, signature, attributes, children, parent] =>
    let kind ← ComponentKind.ofJson? kind
    let value ← value.text?
    let signature ← fieldOr none (Value.optional? Value.text?) signature
    let attributes ← fieldOr [] (Value.list? Attribute.ofJson?) attributes
    let children ← fieldOr [] (Value.list? Value.natural?) children
    let parent ← fieldOr none (Value.optional? Value.natural?) parent
    return { kind, value, signature, attributes, children, parent }
  | _ => none

end Component

end SymbolTable
