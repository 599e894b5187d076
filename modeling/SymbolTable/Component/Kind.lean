/-!
# Kinds of components and attributes

A component is one syntactic unit of a Java program; its kind is closed. Attributes are ordered by
the position of their kind in `AttributeKind.all`, which is the order in which sorted outlines list
them.
-/

namespace SymbolTable

/-- The flavour of an import: whether it is `static` and whether it ends in `*`. -/
inductive ImportKind where
  | single
  | onDemand
  | static
  | staticOnDemand
  deriving DecidableEq, Repr, Inhabited

namespace ImportKind

def classify (isStatic onDemand : Bool) : ImportKind :=
  match isStatic, onDemand with
  | false, false => .single
  | false, true => .onDemand
  | true, false => .static
  | true, true => .staticOnDemand

def isOnDemand : ImportKind → Bool
  | .onDemand | .staticOnDemand => true
  | .single | .static => false

theorem isOnDemand_classify (isStatic onDemand : Bool) :
    (classify isStatic onDemand).isOnDemand = onDemand := by
  cases isStatic <;> cases onDemand <;> rfl

end ImportKind

inductive ComponentKind where
  | root
  | package
  | classType
  | interfaceType
  | enumType
  | enumConstant
  | annotationType
  | constructor
  | defaultConstructor
  | method
  | field
  | parameter
  | typeParameter
  | importOf (kind : ImportKind)
  deriving DecidableEq, Repr, Inhabited

namespace ComponentKind

/-- Class, interface, enum or annotation type. -/
def isTypeDeclaration : ComponentKind → Bool
  | .classType | .interfaceType | .enumType | .annotationType => true
  | _ => false

def isConstructor : ComponentKind → Bool
  | .constructor | .defaultConstructor => true
  | _ => false

def label : ComponentKind → String
  | .root => "ROOT"
  | .package => "PACKAGE"
  | .classType => "CLASS"
  | .interfaceType => "INTERFACE"
  | .enumType => "ENUM"
  | .enumConstant => "ENUM_CONSTANT"
  | .annotationType => "ANNOTATION"
  | .constructor => "CONSTRUCTOR"
  | .defaultConstructor => "DEFAULT_CONSTRUCTOR"
  | .method => "METHOD"
  | .field => "FIELD"
  | .parameter => "PARAMETER"
  | .typeParameter => "TYPE_PARAMETER"
  | .importOf .single => "IMPORT"
  | .importOf .onDemand => "IMPORT_ON_DEMAND"
  | .importOf .static => "IMPORT_STATIC"
  | .importOf .staticOnDemand => "IMPORT_STATIC_ON_DEMAND"

end ComponentKind

inductive AttributeKind where
  | sourceName
  | startLine
  | startColumn
  | stopLine
  | stopColumn
  | modifier
  | annotated
  | extendsType
  | implementsType
  | localClass
  | variadic
  | declaredType
  | returnType
  deriving DecidableEq, Repr, Inhabited

namespace AttributeKind

/-- Every kind, in the order that sorted attribute lists follow. -/
def all : List AttributeKind :=
  [.sourceName, .startLine, .startColumn, .stopLine, .stopColumn, .modifier, .annotated,
    .extendsType, .implementsType, .localClass, .variadic, .declaredType, .returnType]

def rank (kind : AttributeKind) : Nat := all.idxOf kind

theorem getElem?_rank (kind : AttributeKind) : all[kind.rank]? = some kind := by
  cases kind <;> decide

theorem rank_injective {a b : AttributeKind} (h : a.rank = b.rank) : a = b := by
  have hsome : some a = some b := by rw [← a.getElem?_rank, h, b.getElem?_rank]
  exact Option.some.inj hsome

def label : AttributeKind → String
  | .sourceName => "source"
  | .startLine => "start_line"
  | .startColumn => "start_column"
  | .stopLine => "stop_line"
  | .stopColumn => "stop_column"
  | .modifier => "modifier"
  | .annotated => "annotated"
  | .extendsType => "extends"
  | .implementsType => "implements"
  | .localClass => "local_class"
  | .variadic => "variadic"
  | .declaredType => "type"
  | .returnType => "returns"

end AttributeKind

end SymbolTable
