import SymbolTable.Java.Grammar.Parameter

/-!
# Expressions

Operators are read flat, without regard to their precedence: the tree serves to find the classes
declared inside of an expression, and precedence does not decide what is well formed.

An operand is a primary expression with its suffixes, possibly behind prefix operators or casts.
Assignment belongs to the operand on its left, which must be a name, a field or an array element.
-/

namespace SymbolTable

namespace Java

namespace Cursor

/-- The index of the parenthesis that closes the one at `i`, where `depth` are open. -/
def closingIndex (lexemes : Array Lexeme) (i depth : Nat) : Option Nat :=
  if h : i < lexemes.size then
    if lexemes[i].isSymbol "(" then closingIndex lexemes (i + 1) (depth + 1)
    else if lexemes[i].isSymbol ")" then
      if depth ≤ 1 then some i else closingIndex lexemes (i + 1) (depth - 1)
    else closingIndex lexemes (i + 1) depth
  else none
termination_by lexemes.size - i

/-- Whether an arrow follows the word or the parenthesized list ahead. -/
def seesLambda (c : Cursor) : Bool :=
  if c.sees 0 "(" then
    match closingIndex c.lexemes c.index 0 with
    | some i => c.sees (i + 1 - c.index) "->"
    | none => false
  else c.seesWord 0 && c.sees 1 "->"

end Cursor

open Rule

namespace Grammar

/-! ## Operators -/

def prefixOperators : List String := ["+", "-", "!", "~", "++", "--"]

def stepOperators : List String := ["++", "--"]

/-- The operators that start with `>`, none before one that it starts. -/
def angleOperators : List (List String) := [[">", ">", ">"], [">", ">"], [">", "="], [">"]]

def angleAssignments : List (List String) := [[">", ">", ">", "="], [">", ">", "="]]

def joinedAny (texts : List (List String)) : Rule :=
  texts.foldr (fun t more => joined t <|> more) fail

def binaryOperator : Rule :=
  anyOf ["<", "<=", "==", "!=", "&&", "||", "+", "-", "*", "/", "&", "|", "^", "%", "<<"]
    <|> joinedAny angleOperators

def assignmentOperator : Rule :=
  anyOf ["=", "+=", "-=", "*=", "/=", "&=", "|=", "^=", "%=", "<<="] <|> joinedAny angleAssignments

def isAssignable (n : Node) : Bool :=
  n.kind = .identifier || n.kind = .fieldAccess || n.kind = .arrayAccess

/-! ## Primary expressions -/

def valueName : Rule := word Word.namesValue

/-- A literal that is one lexeme. -/
def literal : Rule :=
  lexeme .phrase fun l =>
    l.kind = .literal || (l.kind = .word && ["true", "false", "null"].contains l.text)

def stringLiteral : Rule :=
  lexeme .phrase fun l => l.kind = .literal && l.text.toList.head? = some '"'

/-- A string with embedded expressions. -/
def template (g : Nested) : Rule :=
  node .phrase
    (lexeme .token (fun l => l.kind = .templateStart) ++ g .expression
      ++ zeroOrMore (lexeme .token (fun l => l.kind = .templateMiddle) ++ g .expression)
      ++ lexeme .token fun l => l.kind = .templateStop)

def arguments (g : Nested) : Rule := node .phrase (tok "(" ++ list (g .expression) ++ closing ")")

def parenthesized (g : Nested) : Rule := node .phrase (tok "(" ++ g .expression ++ closing ")")

def arrayInitializer (g : Nested) : Rule :=
  node .phrase (tok "\x7b" ++ list (g .initializer) ++ optional (tok ",") ++ tok "\x7d")

def initializer (g : Nested) : Rule := arrayInitializer g <|> g .expression

def createdType (g : Nested) : Rule := as .type (simpleType g Word.any)

/-- The creation of an object, apart from what may qualify it. -/
def creation (g : Nested) : Rule :=
  tok "new" ++ annotations g ++ optional (typeArguments g ++ annotations g) ++ createdType g
    ++ arguments g ++ optional (g .classBody)

def dimensionExpression (g : Nested) : Rule :=
  node .phrase (annotations g ++ tok "[" ++ g .expression ++ tok "]")

def arrayCreation (g : Nested) : Rule :=
  node .phrase
    (tok "new" ++ annotations g ++ createdType g
      ++ (oneOrMore (dimensionExpression g) ++ optional (dimensions g)
        <|> dimensions g ++ arrayInitializer g))

/-- The end of a reference to a method. -/
def referenceTail (g : Nested) : Rule :=
  tok "::" ++ optional (typeArguments g) ++ word Word.any

/-- An expression that starts with a type: a class literal or a reference to a method. -/
def typeExpression (g : Nested) : Rule :=
  node .phrase (bareType g Word.namesType ++ (tok "." ++ tok "class" <|> referenceTail g))

def call (g : Nested) : Rule := word Word.any ++ arguments g

/-- `super` with the access that must follow it. -/
def superAccess (g : Nested) : Rule :=
  node .phrase (tok "super" ++ referenceTail g)
    <|> node .phrase (tok "super" ++ tok "." ++ optional (typeArguments g) ++ call g)
    <|> node .fieldAccess (tok "super" ++ tok "." ++ word Word.any)

def primary (g : Nested) : Rule :=
  literal
    <|> template g
    <|> node .objectCreation (creation g)
    <|> arrayCreation g
    <|> parenthesized g
    <|> node .phrase (tok "this")
    <|> superAccess g
    <|> typeExpression g
    <|> node .phrase (valueName ++ arguments g)
    <|> valueName

/-- The access to `super` of an enclosing class. -/
def outerSuper : Rule := tok "super" ++ tok "."

/-- What may follow a primary expression. -/
def suffix (g : Nested) : Rule :=
  node .objectCreation (tok "." ++ creation g)
    <|> node .phrase (tok "." ++ optional outerSuper ++ optional (typeArguments g) ++ call g)
    <|> node .fieldAccess
      (tok "." ++ optional outerSuper ++ word fun w => !(["new", "super"].contains w))
    <|> node .phrase (tok "." ++ (stringLiteral <|> template g))
    <|> node .arrayAccess (tok "[" ++ g .expression ++ tok "]")
    <|> node .phrase (referenceTail g)

def access (g : Nested) : Rule := withSuffixes (primary g) (suffix g)

/-! ## Operands -/

def block (g : Nested) : Rule := node .block (braces (g .statement))

def lambda (g : Nested) : Rule :=
  node .phrase
    (check Cursor.seesLambda ++ (valueName <|> inferredParameters <|> formalParameters g)
      ++ tok "->" ++ (block g <|> g .expression))

def castType (g : Nested) : Rule := annotations g ++ bareType g Word.namesType

/-- A cast to one type goes before any operand. -/
def castPrefix (g : Nested) : Rule := node .phrase (tok "(" ++ castType g ++ tok ")")

def intersectionCast (g : Nested) : Rule :=
  node .phrase (tok "(" ++ castType g ++ oneOrMore (tok "&" ++ castType g) ++ tok ")")

/-- An operand apart from the prefix operators. `whole` is the kind of expression it is part of, and
`arrow` the lambdas that are allowed there. -/
def plainOperand (g : Nested) (whole : Nonterminal) (arrow : Rule) : Rule :=
  arrow
    <|> g .switch
    <|> intersectionCast g ++ (arrow <|> access g)
    <|> thenBy (access g) fun n =>
      if isAssignable n then
        assignmentOperator ++ g whole <|> zeroOrMore (anyOf stepOperators)
      else zeroOrMore (anyOf stepOperators)

/-- A parenthesized type is a cast if an operand follows. -/
def operand (g : Nested) : Rule :=
  (anyOf prefixOperators <|> castPrefix g) ++ g .operand
    <|> plainOperand g .expression (lambda g)

def caseOperand (g : Nested) : Rule :=
  (anyOf prefixOperators <|> castPrefix g) ++ g .caseOperand
    <|> plainOperand g .caseExpression fail

/-! ## Expressions -/

/-- `instanceof` with a type and perhaps a name, or with a record pattern. -/
def instanceTest (g : Nested) : Rule :=
  tok "instanceof" ++ optional (tok "final")
    ++ (g .recordPattern <|> g .type ++ optional (word Word.namesVariable))

/-- Operands of the kind `part` with what may stand between them. -/
def expressionOf (g : Nested) (whole part : Nonterminal) : Rule :=
  node .phrase
    (g part
      ++ zeroOrMore
        (binaryOperator ++ g part
          <|> instanceTest g
          <|> tok "?" ++ g .expression ++ tok ":" ++ g whole))

def expression (g : Nested) : Rule := expressionOf g .expression .operand

def caseExpression (g : Nested) : Rule := expressionOf g .caseExpression .caseOperand

/-! ## Patterns -/

def patternType (g : Nested) : Rule := bareType g Word.namesType

/-- In front of a guard, `when` is no name. -/
def typePattern (g : Nested) : Rule :=
  patternType g ++ word fun w => Word.namesVariable w && w ≠ "when"

def recordPattern (g : Nested) : Rule :=
  node .phrase
    (word Word.namesValue ++ optional (typeArguments g) ++ tok "("
      ++ list
        (g .recordPattern
          <|> node .phrase (patternType g ++ word Word.namesVariable)
          <|> tok "_")
      ++ tok ")")

def pattern (g : Nested) : Rule := node .phrase (g .recordPattern <|> typePattern g)

end Grammar

end Java

end SymbolTable
