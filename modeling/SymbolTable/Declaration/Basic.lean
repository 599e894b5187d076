import SymbolTable.Text.Blank

/-!
# Declarations of a compilation unit

The declaration-level structure of one Java source file. Statements and expressions are not kept;
the classes they declare or instantiate anonymously are, as local types of the callable or members
of the type around them.
-/

namespace SymbolTable

/-- A source range: lines from 1, columns from 1 in bytes, the end exclusive. -/
structure Span where
  startLine : Nat
  startColumn : Nat
  stopLine : Nat
  stopColumn : Nat
  deriving DecidableEq, Repr, Inhabited

structure PackageDecl where
  segments : List String
  span : Span
  deriving DecidableEq, Repr, Inhabited

/-- An import; `path` is dotted and lacks the trailing `.*` of an import on demand. -/
structure ImportDecl where
  path : String
  isStatic : Bool
  onDemand : Bool
  span : Span
  deriving DecidableEq, Repr, Inhabited

inductive TypeKind where
  | classType
  | interfaceType
  | enumType
  | annotationType
  deriving DecidableEq, Repr, Inhabited

structure TypeParameterDecl where
  name : String
  bounds : List String
  span : Span
  deriving DecidableEq, Repr, Inhabited

structure ParameterDecl where
  name : String
  modifiers : List String
  declaredType : String
  variadic : Bool
  span : Span
  deriving DecidableEq, Repr, Inhabited

/-- One field declaration, which may declare several names. -/
structure FieldDecl where
  names : List String
  modifiers : List String
  declaredType : String
  /-- An interface constant, which is `public static final` without saying so. -/
  constant : Bool
  span : Span
  deriving DecidableEq, Repr, Inhabited

/-- A type declaration apart from its members. -/
structure TypeHeader where
  kind : TypeKind
  /-- The declared name, or the instantiated type of an anonymous class. -/
  name : String
  modifiers : List String
  typeParameters : List TypeParameterDecl
  superclass : Option String
  interfaces : List String
  anonymous : Bool
  span : Span
  deriving DecidableEq, Repr, Inhabited

/-- A constructor, method or annotation element apart from its local types. -/
structure CallableHeader where
  name : String
  modifiers : List String
  typeParameters : List TypeParameterDecl
  parameters : List ParameterDecl
  /-- Absent for constructors. -/
  returnType : Option String
  span : Span
  deriving DecidableEq, Repr, Inhabited

structure ConstantHeader where
  name : String
  modifiers : List String
  span : Span
  deriving DecidableEq, Repr, Inhabited

mutual
inductive TypeDecl where
  | mk (header : TypeHeader) (members : List Member)

inductive Member where
  | type (decl : TypeDecl)
  | constructor (decl : CallableDecl)
  | method (decl : CallableDecl)
  | field (decl : FieldDecl)
  | enumConstant (decl : ConstantDecl)

inductive CallableDecl where
  | mk (header : CallableHeader) (localTypes : List TypeDecl)

inductive ConstantDecl where
  | mk (header : ConstantHeader) (body : Option (List Member))
end

namespace TypeDecl

def header : TypeDecl → TypeHeader
  | mk header _ => header

def members : TypeDecl → List Member
  | mk _ members => members

def hasConstructor (d : TypeDecl) : Bool :=
  d.members.any fun
    | .constructor _ => true
    | _ => false

end TypeDecl

namespace CallableDecl

def header : CallableDecl → CallableHeader
  | mk header _ => header

def localTypes : CallableDecl → List TypeDecl
  | mk _ localTypes => localTypes

end CallableDecl

namespace ConstantDecl

def header : ConstantDecl → ConstantHeader
  | mk header _ => header

def body : ConstantDecl → Option (List Member)
  | mk _ body => body

end ConstantDecl

/-- The type of a parameter without blanks, with `...` if it is variadic. -/
def ParameterDecl.signatureType (p : ParameterDecl) : List Char :=
  Text.squeeze p.declaredType.toList ++ if p.variadic then "...".toList else []

/-- The parameter types in order, such as `(int,String...)`. -/
def CallableHeader.signature (c : CallableHeader) : String :=
  String.ofList
    ('(' :: List.intercalate [','] (c.parameters.map ParameterDecl.signatureType) ++ [')'])

structure CompilationUnit where
  sourceName : String
  package : Option PackageDecl
  imports : List ImportDecl
  types : List TypeDecl
  deriving Inhabited

namespace CompilationUnit

/-- Whether nothing at all is declared. -/
def isEmpty (u : CompilationUnit) : Bool :=
  u.package.isNone && u.imports.isEmpty && u.types.isEmpty

/-- The part of the source name after its last slash or backslash. -/
def fileName (u : CompilationUnit) : String :=
  String.ofList
    ((Text.pieces (fun c => c = '/' ∨ c = '\\') u.sourceName.toList).getLastD u.sourceName.toList)

end CompilationUnit

end SymbolTable
