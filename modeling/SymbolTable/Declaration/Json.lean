import SymbolTable.Declaration.Basic
import SymbolTable.Json.Value

/-!
# Compilation units as JSON

Every field is written; a member and a type kind are tagged with the name of their case. Absent
values are `null`, and only fields that may be `null` may be left out when a unit is read.
-/

namespace SymbolTable

open Json (Value)

namespace Declaration

/-- Decodes a field that must be there. -/
def required {α : Type} (decode : Value → Option α) : Option Value → Option α
  | none => none
  | some v => decode v

/-- Decodes a field that may be `null` or left out. -/
def optional {α : Type} (decode : Value → Option α) : Option Value → Option (Option α)
  | none => some none
  | some v => v.optional? decode

def texts (v : Value) : Option (List String) := v.list? Value.text?

end Declaration

open Declaration (required optional texts)

namespace Span

def toJson (s : Span) : Value :=
  .object
    [("start_line", .natural s.startLine), ("start_column", .natural s.startColumn),
      ("stop_line", .natural s.stopLine), ("stop_column", .natural s.stopColumn)]

def ofJson? (v : Value) : Option Span := do
  match ← v.record? ["start_line", "start_column", "stop_line", "stop_column"] 4 with
  | [startLine, startColumn, stopLine, stopColumn] =>
    let startLine ← required Value.natural? startLine
    let startColumn ← required Value.natural? startColumn
    let stopLine ← required Value.natural? stopLine
    let stopColumn ← required Value.natural? stopColumn
    return { startLine, startColumn, stopLine, stopColumn }
  | _ => none

end Span

namespace PackageDecl

def toJson (p : PackageDecl) : Value :=
  .object [("segments", .ofTexts p.segments), ("span", p.span.toJson)]

def ofJson? (v : Value) : Option PackageDecl := do
  match ← v.record? ["segments", "span"] 2 with
  | [segments, span] =>
    let segments ← required texts segments
    let span ← required Span.ofJson? span
    return { segments, span }
  | _ => none

end PackageDecl

namespace ImportDecl

def toJson (i : ImportDecl) : Value :=
  .object
    [("path", .string i.path), ("is_static", .bool i.isStatic), ("on_demand", .bool i.onDemand),
      ("span", i.span.toJson)]

def ofJson? (v : Value) : Option ImportDecl := do
  match ← v.record? ["path", "is_static", "on_demand", "span"] 4 with
  | [path, isStatic, onDemand, span] =>
    let path ← required Value.text? path
    let isStatic ← required Value.bool? isStatic
    let onDemand ← required Value.bool? onDemand
    let span ← required Span.ofJson? span
    return { path, isStatic, onDemand, span }
  | _ => none

end ImportDecl

namespace TypeKind

def toJson : TypeKind → Value
  | .classType => .string "Class"
  | .interfaceType => .string "Interface"
  | .enumType => .string "Enum"
  | .annotationType => .string "Annotation"

def ofJson? (v : Value) : Option TypeKind :=
  match v.case? with
  | some ("Class", .null) => some .classType
  | some ("Interface", .null) => some .interfaceType
  | some ("Enum", .null) => some .enumType
  | some ("Annotation", .null) => some .annotationType
  | _ => none

end TypeKind

namespace TypeParameterDecl

def toJson (p : TypeParameterDecl) : Value :=
  .object [("name", .string p.name), ("bounds", .ofTexts p.bounds), ("span", p.span.toJson)]

def ofJson? (v : Value) : Option TypeParameterDecl := do
  match ← v.record? ["name", "bounds", "span"] 3 with
  | [name, bounds, span] =>
    let name ← required Value.text? name
    let bounds ← required texts bounds
    let span ← required Span.ofJson? span
    return { name, bounds, span }
  | _ => none

end TypeParameterDecl

namespace ParameterDecl

def toJson (p : ParameterDecl) : Value :=
  .object
    [("name", .string p.name), ("modifiers", .ofTexts p.modifiers),
      ("declared_type", .string p.declaredType), ("variadic", .bool p.variadic),
      ("span", p.span.toJson)]

def ofJson? (v : Value) : Option ParameterDecl := do
  match ← v.record? ["name", "modifiers", "declared_type", "variadic", "span"] 5 with
  | [name, modifiers, declaredType, variadic, span] =>
    let name ← required Value.text? name
    let modifiers ← required texts modifiers
    let declaredType ← required Value.text? declaredType
    let variadic ← required Value.bool? variadic
    let span ← required Span.ofJson? span
    return { name, modifiers, declaredType, variadic, span }
  | _ => none

end ParameterDecl

namespace FieldDecl

def toJson (f : FieldDecl) : Value :=
  .object
    [("names", .ofTexts f.names), ("modifiers", .ofTexts f.modifiers),
      ("declared_type", .string f.declaredType), ("constant", .bool f.constant),
      ("span", f.span.toJson)]

def ofJson? (v : Value) : Option FieldDecl := do
  match ← v.record? ["names", "modifiers", "declared_type", "constant", "span"] 5 with
  | [names, modifiers, declaredType, constant, span] =>
    let names ← required texts names
    let modifiers ← required texts modifiers
    let declaredType ← required Value.text? declaredType
    let constant ← required Value.bool? constant
    let span ← required Span.ofJson? span
    return { names, modifiers, declaredType, constant, span }
  | _ => none

end FieldDecl

/-! ## Writing declarations -/

mutual
def TypeDecl.toJson : TypeDecl → Value
  | .mk h members =>
    .object
      [("kind", h.kind.toJson), ("name", .string h.name), ("modifiers", .ofTexts h.modifiers),
        ("type_parameters", .array (h.typeParameters.map TypeParameterDecl.toJson)),
        ("superclass", .ofOption .string h.superclass), ("interfaces", .ofTexts h.interfaces),
        ("members", .array (Member.toJsonList members)), ("anonymous", .bool h.anonymous),
        ("span", h.span.toJson)]

def TypeDecl.toJsonList : List TypeDecl → List Value
  | [] => []
  | d :: rest => d.toJson :: TypeDecl.toJsonList rest

def Member.toJson : Member → Value
  | .type d => .object [("Type", d.toJson)]
  | .constructor d => .object [("Constructor", d.toJson)]
  | .method d => .object [("Method", d.toJson)]
  | .field f => .object [("Field", f.toJson)]
  | .enumConstant d => .object [("EnumConstant", d.toJson)]

def Member.toJsonList : List Member → List Value
  | [] => []
  | m :: rest => m.toJson :: Member.toJsonList rest

def CallableDecl.toJson : CallableDecl → Value
  | .mk h localTypes =>
    .object
      [("name", .string h.name), ("modifiers", .ofTexts h.modifiers),
        ("type_parameters", .array (h.typeParameters.map TypeParameterDecl.toJson)),
        ("parameters", .array (h.parameters.map ParameterDecl.toJson)),
        ("return_type", .ofOption .string h.returnType),
        ("local_types", .array (TypeDecl.toJsonList localTypes)), ("span", h.span.toJson)]

def ConstantDecl.toJson : ConstantDecl → Value
  | .mk h none =>
    .object
      [("name", .string h.name), ("modifiers", .ofTexts h.modifiers), ("body", .null),
        ("span", h.span.toJson)]
  | .mk h (some body) =>
    .object
      [("name", .string h.name), ("modifiers", .ofTexts h.modifiers),
        ("body", .array (Member.toJsonList body)), ("span", h.span.toJson)]
end

def CompilationUnit.toJson (u : CompilationUnit) : Value :=
  .object
    [("source_name", .string u.sourceName), ("package", .ofOption PackageDecl.toJson u.package),
      ("imports", .array (u.imports.map ImportDecl.toJson)),
      ("types", .array (u.types.map TypeDecl.toJson))]

/-! ## Reading declarations

Declarations nest at most as deeply as the values they are read from, so the depth of a value bounds
the recursion. -/

mutual
def TypeDecl.ofJsonWithin : Nat → Value → Option TypeDecl
  | 0, _ => none
  | depth + 1, v => do
    let names := ["kind", "name", "modifiers", "type_parameters", "superclass", "interfaces",
      "members", "anonymous", "span"]
    match ← v.record? names 9 with
    | [kind, name, modifiers, typeParameters, superclass, interfaces, members, anonymous, span] =>
      let kind ← required TypeKind.ofJson? kind
      let name ← required Value.text? name
      let modifiers ← required texts modifiers
      let typeParameters ← required (Value.list? TypeParameterDecl.ofJson?) typeParameters
      let superclass ← optional Value.text? superclass
      let interfaces ← required texts interfaces
      let members ← required (Value.list? (Member.ofJsonWithin depth)) members
      let anonymous ← required Value.bool? anonymous
      let span ← required Span.ofJson? span
      return .mk { kind, name, modifiers, typeParameters, superclass, interfaces, anonymous, span }
        members
    | _ => none

def Member.ofJsonWithin : Nat → Value → Option Member
  | 0, _ => none
  | depth + 1, v =>
    match v.case? with
    | some ("Type", content) => (TypeDecl.ofJsonWithin depth content).map .type
    | some ("Constructor", content) => (CallableDecl.ofJsonWithin depth content).map .constructor
    | some ("Method", content) => (CallableDecl.ofJsonWithin depth content).map .method
    | some ("Field", content) => (FieldDecl.ofJson? content).map .field
    | some ("EnumConstant", content) => (ConstantDecl.ofJsonWithin depth content).map .enumConstant
    | _ => none

def CallableDecl.ofJsonWithin : Nat → Value → Option CallableDecl
  | 0, _ => none
  | depth + 1, v => do
    let names := ["name", "modifiers", "type_parameters", "parameters", "return_type",
      "local_types", "span"]
    match ← v.record? names 7 with
    | [name, modifiers, typeParameters, parameters, returnType, localTypes, span] =>
      let name ← required Value.text? name
      let modifiers ← required texts modifiers
      let typeParameters ← required (Value.list? TypeParameterDecl.ofJson?) typeParameters
      let parameters ← required (Value.list? ParameterDecl.ofJson?) parameters
      let returnType ← optional Value.text? returnType
      let localTypes ← required (Value.list? (TypeDecl.ofJsonWithin depth)) localTypes
      let span ← required Span.ofJson? span
      return .mk { name, modifiers, typeParameters, parameters, returnType, span } localTypes
    | _ => none

def ConstantDecl.ofJsonWithin : Nat → Value → Option ConstantDecl
  | 0, _ => none
  | depth + 1, v => do
    match ← v.record? ["name", "modifiers", "body", "span"] 4 with
    | [name, modifiers, body, span] =>
      let name ← required Value.text? name
      let modifiers ← required texts modifiers
      let body ← optional (Value.list? (Member.ofJsonWithin depth)) body
      let span ← required Span.ofJson? span
      return .mk { name, modifiers, span } body
    | _ => none
end

def CompilationUnit.ofJson? (v : Value) : Option CompilationUnit := do
  match ← v.record? ["source_name", "package", "imports", "types"] 4 with
  | [sourceName, package, imports, types] =>
    let sourceName ← required Value.text? sourceName
    let package ← optional PackageDecl.ofJson? package
    let imports ← required (Value.list? ImportDecl.ofJson?) imports
    let types ← required (Value.list? (TypeDecl.ofJsonWithin v.depth)) types
    return { sourceName, package, imports, types }
  | _ => none

end SymbolTable
