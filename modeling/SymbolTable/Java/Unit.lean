import SymbolTable.Java.Header

/-!
# Reading a compilation unit off a syntax tree

Type declarations nest in bodies. The classes declared inside of a callable or of an initial value
are its local types; an object creation with a body declares an anonymous class, after the classes
of its arguments.
-/

namespace SymbolTable

namespace Java

namespace Reading

/-- Whether the node is the one among the parts of an enum constant that its body is looked for in:
the first with the role of a body or, without any, the first body of a class. -/
def mayBeBody (r : Reading) (parts : List Node) (n : Node) : Bool :=
  if parts.any fun part => part.role = some .body then n.role = some .body
  else n.kind = .classBody && !r.skips n

mutual
/-- The members of the type whose parts are given, `read` before them; the last body counts. -/
def typeMembers (r : Reading) (owner : TypeKind) (read : List Member) : List Node → List Member
  | [] => read
  | n :: rest =>
    match n with
    | .mk kind _ flaw _ _ children =>
      if r.tolerant && flaw.isSome then r.typeMembers owner read rest
      else
        match kind with
        | .classBody | .interfaceBody | .annotationBody =>
          r.typeMembers owner (r.members owner children) rest
        | .enumBody => r.typeMembers owner (r.enumMembers children) rest
        | _ => r.typeMembers owner read rest

/-- The members among the parts of a body. -/
def members (r : Reading) (owner : TypeKind) : List Node → List Member
  | [] => []
  | n :: rest => r.member owner n ++ r.members owner rest

/-- The members among the parts of the body of an enum. -/
def enumMembers (r : Reading) : List Node → List Member
  | [] => []
  | n :: rest =>
    (match n with
    | .mk kind role flaw start stop children =>
      if r.tolerant && flaw.isSome then []
      else
        match kind with
        | .enumConstant =>
          match r.constantHeader? (.mk kind role flaw start stop children) with
          | some header =>
            [.enumConstant (.mk header (r.bodyWhere (r.mayBeBody children) children))]
          | none => []
        | .enumMembers => r.members .enumType children
        | _ => [])
      ++ r.enumMembers rest

/-- The members of the first part that passes the test, unless that is passed over. -/
def bodyWhere (r : Reading) (test : Node → Bool) : List Node → Option (List Member)
  | [] => none
  | n :: rest =>
    if test n then
      match n with
      | .mk _ _ flaw _ _ children =>
        if r.tolerant && flaw.isSome then none else some (r.members .classType children)
    else r.bodyWhere test rest

/-- What one part of a body declares. -/
def member (r : Reading) (owner : TypeKind) : Node → List Member
  | .mk kind role flaw start stop children =>
    let n : Node := .mk kind role flaw start stop children
    if r.skips n then []
    else
      match kind with
      | .methodDeclaration =>
        match r.methodHeader? n with
        | some header => [.method (.mk header (r.localTypesOf .body children))]
        | none => []
      | .annotationElement =>
        match r.elementHeader? n with
        | some header => [.method (.mk header [])]
        | none => []
      | .constructorDeclaration =>
        match r.constructorHeader? n with
        | some header => [.constructor (.mk header (r.localTypesOf .body children))]
        | none => []
      | .fieldDeclaration =>
        r.fieldMembers n (owner = .interfaceType) (r.declaratorTypes children)
      | .constantDeclaration => r.fieldMembers n true (r.declaratorTypes children)
      | .block | .staticInitializer => (r.localTypesAmong children).map .type
      | _ =>
        match r.typeHeader? n with
        | some header => [.type (.mk header (r.typeMembers header.kind [] children))]
        | none => []

/-- The classes declared in a node. -/
def localTypes (r : Reading) : Node → List TypeDecl
  | .mk kind role flaw start stop children =>
    let n : Node := .mk kind role flaw start stop children
    if r.skips n then []
    else
      match kind.typeKind? with
      | some _ =>
        match r.typeHeader? n with
        | some header => [.mk header (r.typeMembers header.kind [] children)]
        | none => []
      | none =>
        if kind = .objectCreation then
          r.argumentTypes children
            ++ match r.creationBody none children, r.anonymousHeader? n with
              | some members, some header => [.mk header members]
              | _, _ => []
        else r.localTypesAmong children

/-- The classes declared in nodes. -/
def localTypesAmong (r : Reading) : List Node → List TypeDecl
  | [] => []
  | n :: rest => (if n.isNamed then r.localTypes n else []) ++ r.localTypesAmong rest

/-- The classes declared in the parts of an object creation, apart from its body. -/
def argumentTypes (r : Reading) : List Node → List TypeDecl
  | [] => []
  | n :: rest =>
    (if n.isNamed && n.kind ≠ .classBody then r.localTypes n else []) ++ r.argumentTypes rest

/-- The members of the body among the parts of an object creation, `read` before them; the last body
counts. -/
def creationBody (r : Reading) (read : Option (List Member)) : List Node → Option (List Member)
  | [] => read
  | n :: rest =>
    match n with
    | .mk kind _ _ _ _ children =>
      if kind = .classBody then r.creationBody (some (r.members .classType children)) rest
      else r.creationBody read rest

/-- The classes declared in the node of the given role. -/
def localTypesOf (r : Reading) (role : Role) : List Node → List TypeDecl
  | [] => []
  | n :: rest => if n.role = some role then r.localTypes n else r.localTypesOf role rest

/-- The classes declared in the initial values of variables. -/
def declaratorTypes (r : Reading) : List Node → List TypeDecl
  | [] => []
  | n :: rest =>
    (match n with
    | .mk kind _ flaw _ _ children =>
      if kind = .declarator && !(r.tolerant && flaw.isSome) then r.localTypesOf .value children
      else [])
      ++ r.declaratorTypes rest

/-- A field, then the classes of its initial values. -/
def fieldMembers (r : Reading) (n : Node) (constant : Bool) (types : List TypeDecl) : List Member :=
  match r.roleText? n .type with
  | some _ => (r.field? constant n).toList.map .field ++ types.map .type
  | none => []
end

/-- The unit of a whole tree; the last package wins. -/
def unit (r : Reading) (root : Node) (sourceName : String) : CompilationUnit :=
  let parts := r.parts root
  { sourceName
    package := ((parts.filter fun n => n.kind = .packageDeclaration).getLast?).bind r.package?
    imports := (parts.filter fun n => n.kind = .importDeclaration).filterMap r.import?
    types := parts.flatMap fun n => if n.kind.typeKind?.isSome then r.localTypes n else [] }

end Reading

end Java

end SymbolTable
