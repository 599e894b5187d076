import SymbolTable.Java.Grammar.Word
import SymbolTable.Java.Rule

/-!
# Names, annotations and types

The rules that recur inside of each other are named by `Nonterminal`. Every other rule is a function
of `Nested`, which gives the rules of the nonterminals.
-/

namespace SymbolTable

namespace Java

inductive Nonterminal where
  | annotationUse
  | elementValue
  | type
  | expression
  /-- An expression of a `case`, where an arrow ends the label. -/
  | caseExpression
  | operand
  | caseOperand
  | initializer
  | switch
  | recordPattern
  | statement
  | classBody
  | interfaceBody
  | annotationBody
  | enumBody
  | typeDeclaration
  deriving DecidableEq, Repr

abbrev Nested := Nonterminal → Rule

open Rule

/-! ## Names -/

def name : Rule :=
  ⟨fun c =>
    ((word Word.any ++ zeroOrMore (tok "." ++ word Word.any)).run c).map fun
      | ([n], c) => ([n], c)
      | (ns, c) => (Node.covering .scopedName ns, c)⟩

namespace Grammar

/-! ## Annotations -/

def elementPair (g : Nested) : Rule :=
  node .phrase (word Word.any ++ tok "=" ++ g .elementValue)

def annotationArguments (g : Nested) : Rule :=
  node .phrase
    (tok "(" ++ separated (tok ",") (elementPair g) ++ tok ")"
      <|> tok "(" ++ optional (g .elementValue) ++ tok ")")

def annotationUse (g : Nested) : Rule :=
  node .phrase (tok "@" ++ name ++ optional (annotationArguments g))

def elementValue (g : Nested) : Rule :=
  node .phrase (tok "\x7b" ++ list (g .elementValue) ++ optional (tok ",") ++ tok "\x7d")
    <|> g .annotationUse
    <|> g .expression

def annotations (g : Nested) : Rule := zeroOrMore (g .annotationUse)

/-! ## Types -/

def wildcard (g : Nested) : Rule :=
  node .phrase (annotations g ++ tok "?" ++ optional (anyOf ["extends", "super"] ++ g .type))

def typeArguments (g : Nested) : Rule :=
  node .phrase (tok "<" ++ list (wildcard g <|> g .type) ++ tok ">")

def primitiveType : Rule := anyOf Word.primitives

/-- A class or interface type whose first word passes the test. -/
def namedType (g : Nested) (admits : String → Bool) : Rule :=
  word admits ++ optional (typeArguments g)
    ++ zeroOrMore
      (tok "." ++ annotations g ++ word Word.namesInnerType ++ optional (typeArguments g))

def simpleType (g : Nested) (admits : String → Bool) : Rule :=
  node .type (primitiveType <|> namedType g admits)

def dimensions (g : Nested) : Rule :=
  node .dimensions (oneOrMore (annotations g ++ tok "[" ++ tok "]"))

/-- A type without annotations in front. -/
def bareType (g : Nested) (admits : String → Bool) : Rule :=
  node .type ((primitiveType <|> namedType g admits) ++ optional (dimensions g))

def type (g : Nested) : Rule :=
  node .type (oneOrMore (g .annotationUse) ++ bareType g Word.any) <|> bareType g Word.any

def typeList (g : Nested) : Rule := node .typeList (separated (tok ",") (g .type))

def typeParameter (g : Nested) : Rule :=
  node .typeParameter
    (annotations g ++ lexeme .typeName Lexeme.isWord
      ++ optional
        (node .typeBound (tok "extends" ++ separated (tok "&") (g .type))))

def typeParameters (g : Nested) : Rule :=
  node .typeParameters (tok "<" ++ separated (tok ",") (typeParameter g) ++ tok ">")

/-! ## Modifiers -/

/-- Whether the modifier keyword ahead starts something else. -/
def startsOtherwise (c : Cursor) : Bool :=
  (c.sees 0 "default" && c.seesAny 1 [":", "->"])
    || (c.sees 0 "static" && c.sees 1 "\x7b")
    || (c.sees 0 "synchronized" && c.sees 1 "(")
    || (c.sees 0 "sealed" && !(c.seesWord 1 || c.sees 1 "@" || c.sees 1 "@interface"))

def modifier (g : Nested) : Rule :=
  g .annotationUse
    <|> check (fun c => !startsOtherwise c) ++ anyOf Word.modifiers
    <|> joined ["non", "-", "sealed"]

def modifiers (g : Nested) : Rule := node .modifiers (zeroOrMore (modifier g))

end Grammar

end Java

end SymbolTable
