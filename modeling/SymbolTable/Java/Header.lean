import SymbolTable.Declaration.Basic
import SymbolTable.Java.Node

/-!
# Reading headers off a syntax tree

The parts of declarations that do not hold other declarations. A tolerant reading passes over nodes
with a flaw and everything below them; a strict one takes every node.
-/

namespace SymbolTable

namespace Java

structure Reading where
  source : Array Char
  tolerant : Bool

def NodeKind.typeKind? : NodeKind → Option TypeKind
  | .classDeclaration | .recordDeclaration => some .classType
  | .interfaceDeclaration => some .interfaceType
  | .enumDeclaration => some .enumType
  | .annotationDeclaration => some .annotationType
  | _ => none

def Node.span (n : Node) : Span := ⟨n.start.line, n.start.column, n.stop.line, n.stop.column⟩

namespace Reading

def skips (r : Reading) (n : Node) : Bool := r.tolerant && n.flaw.isSome

/-- The source under a node, comments included, without blanks around it. -/
def textList (r : Reading) (n : Node) : List Char :=
  Text.trim (r.source.extract n.start.offset n.stop.offset).toList

def text (r : Reading) (n : Node) : String := String.ofList (r.textList n)

/-- The named children that are not passed over. -/
def parts (r : Reading) (n : Node) : List Node := n.namedChildren.filter fun child => !r.skips child

def childOfKind? (r : Reading) (n : Node) (kind : NodeKind) : Option Node :=
  n.children.find? fun child => child.kind = kind && !r.skips child

def lastOfKind? (r : Reading) (n : Node) (kind : NodeKind) : Option Node :=
  n.children.reverse.find? fun child => child.kind = kind && !r.skips child

/-- The text of the child with the given role; an empty text counts as none. -/
def roleText? (r : Reading) (n : Node) (role : Role) : Option String :=
  match n.childOfRole? role with
  | some child => if r.skips child || (r.textList child).isEmpty then none else some (r.text child)
  | none => none

/-- The name that a node is given, or the identifier that stands in it in place of one. -/
def nameText? (r : Reading) (n : Node) : Option String :=
  (r.roleText? n .name).or ((r.childOfKind? n .identifier).map r.text)

/-! ## Packages and imports -/

def isName (n : Node) : Bool := n.kind = .identifier || n.kind = .scopedName

/-- The segments of a dotted name; comments stay in the segments. -/
def segments (s : List Char) : List String :=
  (((Text.pieces (· = '.') s).map Text.trim).filter (· ≠ [])).map String.ofList

def package? (r : Reading) (n : Node) : Option PackageDecl :=
  match n.namedChildren.find? isName with
  | some name =>
    let segments := segments (r.textList name)
    if segments.isEmpty then none else some ⟨segments, n.span⟩
  | none => none

def import? (r : Reading) (n : Node) : Option ImportDecl :=
  match n.children.reverse.find? isName with
  | some name =>
    some
      { path := String.ofList (Text.squeeze (r.textList name))
        isStatic := n.children.any fun child => child.kind = .staticMark
        onDemand := n.children.any fun child => child.kind = .asterisk
        span := n.span }
  | none => none

/-! ## Modifiers and types -/

def modifiers (r : Reading) (n : Node) : List String :=
  match r.childOfKind? n .modifiers with
  | some list =>
    ((list.children.filter fun child => !r.skips child).filter
      fun child => !(r.textList child).isEmpty).map r.text
  | none => []

mutual
/-- The types that a part of a list stands for. -/
def typeText (r : Reading) : Node → List String
  | .mk kind role flaw start stop children =>
    let n : Node := .mk kind role flaw start stop children
    if r.skips n then [] else if kind = .typeList then r.typeTextsAmong children else [r.text n]

def typeTextsAmong (r : Reading) : List Node → List String
  | [] => []
  | n :: rest => (if n.isNamed then r.typeText n else []) ++ r.typeTextsAmong rest
end

/-- The types of a list and of the lists in it, with the comments among them. -/
def typeTexts (r : Reading) (n : Node) : List String := r.typeTextsAmong n.children

def typeParameter? (r : Reading) (n : Node) : Option TypeParameterDecl :=
  match n.namedChildren.find? fun child =>
    child.kind = .typeName || child.kind = .identifier with
  | some name =>
    let bounds := n.namedChildren.filter fun child => child.kind = .typeBound
    some ⟨r.text name, bounds.flatMap r.typeTexts, n.span⟩
  | none => none

def typeParameters (r : Reading) : Option Node → List TypeParameterDecl
  | some list =>
    ((r.parts list).filter fun child => child.kind = .typeParameter).filterMap r.typeParameter?
  | none => []

/-- What is named first after the last `extends`; that may be a comment. -/
def superclass? (r : Reading) (n : Node) : Option String :=
  match r.lastOfKind? n .superclass with
  | some clause => (r.parts clause).head?.map r.text
  | none => none

def interfaces (r : Reading) (n : Node) : List String :=
  let clauses := n.children.filter fun child =>
    (child.kind = .superInterfaces || child.kind = .extendedInterfaces) && !r.skips child
  clauses.flatMap r.typeTexts

def typeHeader? (r : Reading) (n : Node) : Option TypeHeader :=
  match n.kind.typeKind?, r.roleText? n .name with
  | some kind, some name =>
    some
      { kind, name
        modifiers := r.modifiers n
        typeParameters := r.typeParameters (r.lastOfKind? n .typeParameters)
        superclass := r.superclass? n
        interfaces := r.interfaces n
        anonymous := false
        span := n.span }
  | _, _ => none

/-- The class of an object creation with a body, named for the created type less its arguments. -/
def anonymousHeader? (r : Reading) (n : Node) : Option TypeHeader :=
  match r.roleText? n .type with
  | some created =>
    some
      { kind := .classType
        name := String.ofList (Text.trim (created.toList.takeWhile (· ≠ '<')))
        modifiers := []
        typeParameters := []
        superclass := none
        interfaces := []
        anonymous := true
        span := n.span }
  | none => none

/-! ## Parameters -/

def formalParameter? (r : Reading) (n : Node) : Option ParameterDecl :=
  match r.roleText? n .type, r.nameText? n with
  | some type, some name =>
    let dimensions := ((r.childOfKind? n .dimensions).map r.text).getD ""
    some ⟨name, r.modifiers n, type ++ dimensions, false, n.span⟩
  | _, _ => none

/-- The type and the name of a variadic parameter, as far as they have been read. -/
structure SpreadParts where
  type : Option String := none
  name : Option String := none

/-- The type is the first thing that is neither modifier nor declarator; only after it an identifier
may be the name. -/
def addPart (r : Reading) (read : SpreadParts) (child : Node) : SpreadParts :=
  match child.kind, read.type with
  | .modifiers, _ => read
  | .declarator, _ => { read with name := r.nameText? child }
  | .identifier, some _ => { read with name := some (r.text child) }
  | _, none => { read with type := some (r.text child) }
  | _, some _ => read

def spreadParameter? (r : Reading) (n : Node) : Option ParameterDecl :=
  match n.namedChildren.foldl r.addPart {} with
  | ⟨some type, some name⟩ => some ⟨name, r.modifiers n, type, true, n.span⟩
  | _ => none

def parameter? (r : Reading) (n : Node) : Option ParameterDecl :=
  match n.kind with
  | .formalParameter => r.formalParameter? n
  | .spreadParameter => r.spreadParameter? n
  | _ => none

def parameters (r : Reading) (n : Node) : List ParameterDecl :=
  match n.childOfRole? .parameters with
  | some list => (r.parts list).filterMap r.parameter?
  | none => []

/-! ## Members -/

def constructorHeader? (r : Reading) (n : Node) : Option CallableHeader :=
  (r.roleText? n .name).map fun name =>
    ⟨name, r.modifiers n, r.typeParameters (r.childOfKind? n .typeParameters), r.parameters n, none,
      n.span⟩

def methodHeader? (r : Reading) (n : Node) : Option CallableHeader :=
  (r.roleText? n .name).map fun name =>
    ⟨name, r.modifiers n, r.typeParameters (r.childOfKind? n .typeParameters), r.parameters n,
      r.roleText? n .type, n.span⟩

/-- The elements of an annotation type are methods without parameters. -/
def elementHeader? (r : Reading) (n : Node) : Option CallableHeader :=
  (r.roleText? n .name).map fun name =>
    ⟨name, r.modifiers n, [], [], r.roleText? n .type, n.span⟩

def constantHeader? (r : Reading) (n : Node) : Option ConstantHeader :=
  (r.roleText? n .name).map fun name => ⟨name, r.modifiers n, n.span⟩

def field? (r : Reading) (constant : Bool) (n : Node) : Option FieldDecl :=
  let declarators := (r.parts n).filter fun child => child.kind = .declarator
  let names := declarators.filterMap fun d => r.roleText? d .name
  match r.roleText? n .type with
  | some type => if names.isEmpty then none else some ⟨names, r.modifiers n, type, constant, n.span⟩
  | none => none

end Reading

end Java

end SymbolTable
