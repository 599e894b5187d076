import SymbolTable.Java.Lexeme

/-!
# Syntax trees

A node covers a stretch of the source and has the nodes inside of it as children. Only the kinds
that declarations are read from are told apart; every other construct is a phrase.

A node with a flaw stands for something that the source lacks, or for something in it that fits
nowhere. A source is well formed when its tree has no flaw.
-/

namespace SymbolTable

namespace Java

inductive NodeKind where
  | unit
  | comment
  /-- A keyword, a symbol, or something with a flaw. -/
  | token
  | phrase
  | identifier
  | scopedName
  | asterisk
  | staticMark
  | type
  | typeName
  | dimensions
  | modifiers
  | packageDeclaration
  | importDeclaration
  | classDeclaration
  | recordDeclaration
  | interfaceDeclaration
  | enumDeclaration
  | annotationDeclaration
  | typeParameters
  | typeParameter
  | typeBound
  | superclass
  | superInterfaces
  | extendedInterfaces
  | typeList
  | classBody
  | interfaceBody
  | annotationBody
  | enumBody
  | enumMembers
  | enumConstant
  | fieldDeclaration
  | constantDeclaration
  | declarator
  | methodDeclaration
  | annotationElement
  | constructorDeclaration
  | formalParameter
  | spreadParameter
  | block
  | staticInitializer
  | objectCreation
  | fieldAccess
  | arrayAccess
  deriving DecidableEq, Repr, Inhabited

/-- What a node is to its parent. -/
inductive Role where
  | name
  | type
  | parameters
  | body
  | value
  deriving DecidableEq, Repr, Inhabited

inductive Flaw where
  /-- Something that ought to stand here does not. -/
  | missing
  /-- Something stands here that ought not to. -/
  | misplaced
  deriving DecidableEq, Repr, Inhabited

inductive Node where
  | mk (kind : NodeKind) (role : Option Role) (flaw : Option Flaw) (start stop : Place)
    (children : List Node)
  deriving Repr, Inhabited

namespace Node

def kind : Node → NodeKind
  | mk kind _ _ _ _ _ => kind

def role : Node → Option Role
  | mk _ role _ _ _ _ => role

def flaw : Node → Option Flaw
  | mk _ _ flaw _ _ _ => flaw

def start : Node → Place
  | mk _ _ _ start _ _ => start

def stop : Node → Place
  | mk _ _ _ _ stop _ => stop

def children : Node → List Node
  | mk _ _ _ _ _ children => children

def isNamed (n : Node) : Bool := n.kind ≠ .token

def namedChildren (n : Node) : List Node := n.children.filter isNamed

def withRole (n : Node) (role : Role) : Node :=
  match n with
  | mk kind _ flaw start stop children => mk kind (some role) flaw start stop children

def childOfRole? (n : Node) (role : Role) : Option Node :=
  n.children.find? fun child => child.role = some role

/-! ## Making nodes -/

def ofLexeme (kind : NodeKind) (l : Lexeme) : Node := mk kind none none l.start l.stop []

def missing (p : Place) : Node := mk .token none (some .missing) p p []

def misplaced (l : Lexeme) : Node := mk .token none (some .misplaced) l.start l.stop []

/-- The node over the given ones; none over nothing. -/
def covering (kind : NodeKind) : List Node → List Node
  | [] => []
  | first :: rest =>
    [mk kind none none first.start ((first :: rest).getLastD first).stop (first :: rest)]

/-- Lets the nodes in front of `n` be its first children. -/
def prepend (front : List Node) (n : Node) : Node :=
  match front, n with
  | first :: _, mk kind role flaw _ stop children =>
    mk kind role flaw first.start stop (front ++ children)
  | [], n => n

/-! ## Flaws -/

mutual
/-- Whether the node or anything below it has a flaw. -/
def hasFlaw : Node → Bool
  | mk _ _ flaw _ _ children => flaw.isSome || anyFlaw children

def anyFlaw : List Node → Bool
  | [] => false
  | n :: rest => n.hasFlaw || anyFlaw rest
end

theorem anyFlaw_eq_any (ns : List Node) : anyFlaw ns = ns.any hasFlaw := by
  induction ns with
  | nil => rfl
  | cons n ns ih => simp [anyFlaw, ih]

mutual
/-- The number of nodes on the longest way down. -/
def height : Node → Nat
  | mk _ _ _ _ _ children => heightOver children + 1

def heightOver : List Node → Nat
  | [] => 0
  | n :: rest => max n.height (heightOver rest)
end

/-! ## Comments -/

mutual
/-- Puts comments, all of them inside of the node, below the smallest nodes around them. -/
def withComments (comments : List Lexeme) : Node → Node
  | mk kind role flaw start stop children =>
    mk kind role flaw start stop (mixComments comments children)

/-- Puts comments among and into nodes; both are in source order. -/
def mixComments (comments : List Lexeme) : List Node → List Node
  | [] => comments.map (ofLexeme .comment)
  | n :: rest =>
    let before := comments.takeWhile fun l => l.stop.offset ≤ n.start.offset
    let others := comments.dropWhile fun l => l.stop.offset ≤ n.start.offset
    let inside := others.takeWhile fun l => l.start.offset < n.stop.offset
    let after := others.dropWhile fun l => l.start.offset < n.stop.offset
    before.map (ofLexeme .comment) ++ n.withComments inside :: mixComments after rest
end

end Node

end Java

end SymbolTable
