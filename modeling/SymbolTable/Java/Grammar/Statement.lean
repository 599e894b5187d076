import SymbolTable.Java.Grammar.Expression
import SymbolTable.Java.Grammar.Module

/-!
# Statements
-/

namespace SymbolTable

namespace Java

open Rule

namespace Grammar

/-! ## Switches -/

/-- In a label `default` may also stand among the values. -/
def caseLabel (g : Nested) : Rule :=
  node .phrase
    (tok "case"
        ++ (separated (tok ",") (g .caseExpression <|> tok "default") ++ check endsLabel
          <|> pattern g)
        ++ optional (tok "when" ++ g .caseExpression)
      <|> tok "default")
where
  endsLabel (c : Cursor) : Bool := c.seesAny 0 [":", "->", "when"]

def throwStatement (g : Nested) : Rule :=
  node .phrase (tok "throw" ++ g .expression ++ closing ";")

def expressionStatement (g : Nested) : Rule := node .phrase (g .expression ++ closing ";")

def switchRule (g : Nested) : Rule :=
  node .phrase
    (caseLabel g ++ tok "->" ++ (block g <|> throwStatement g <|> expressionStatement g))

/-- Labels with the statements behind them. -/
def switchGroup (g : Nested) : Rule :=
  node .phrase (oneOrMore (caseLabel g ++ tok ":") ++ zeroOrMore (g .statement))

/-- The cases of a switch are all of one sort. -/
def switch (g : Nested) : Rule :=
  node .phrase
    (tok "switch" ++ parenthesized g ++ tok "\x7b"
      ++ (zeroOrMore (switchRule g) ++ tok "\x7d"
        <|> items "\x7d" (switchGroup g) ++ closing "\x7d"))

/-! ## Loops and branches -/

def ifStatement (g : Nested) : Rule :=
  node .phrase
    (tok "if" ++ parenthesized g ++ g .statement ++ optional (tok "else" ++ g .statement))

def whileStatement (g : Nested) : Rule :=
  node .phrase (tok "while" ++ parenthesized g ++ g .statement)

def doStatement (g : Nested) : Rule :=
  node .phrase (tok "do" ++ g .statement ++ tok "while" ++ parenthesized g ++ closing ";")

def variableType (g : Nested) : Rule := as .type (bareType g Word.namesType)

def localVariable (g : Nested) : Rule :=
  node .phrase (modifiers g ++ variableType g ++ declarators g ++ closing ";")

/-- The head of a loop over the elements of a collection. -/
def elementsHead (g : Nested) : Rule :=
  modifiers g ++ variableType g ++ variableName g ++ tok ":" ++ g .expression

/-- The head of a loop with a start, a condition and a step. -/
def stepsHead (g : Nested) : Rule :=
  (localVariable g <|> list (g .expression) ++ tok ";")
    ++ optional (g .expression) ++ tok ";" ++ list (g .expression)

def forStatement (g : Nested) : Rule :=
  node .phrase
    (tok "for" ++ tok "(" ++ (elementsHead g <|> stepsHead g) ++ tok ")" ++ g .statement)

/-! ## Exceptions -/

def catchClause (g : Nested) : Rule :=
  node .phrase
    (tok "catch" ++ tok "(" ++ modifiers g
      ++ separated (tok "|") (bareType g Word.namesMemberType)
      ++ variableName g ++ closing ")" ++ block g)

def finallyClause (g : Nested) : Rule := node .phrase (tok "finally" ++ block g)

def resource (g : Nested) : Rule :=
  node .phrase (modifiers g ++ variableType g ++ variableName g ++ tok "=" ++ g .expression)
    <|> thenBy (access g) fun n =>
      if n.kind = .identifier || n.kind = .fieldAccess then nothing else fail

def resources (g : Nested) : Rule :=
  node .phrase
    (tok "(" ++ separated (tok ";") (resource g) ++ optional (tok ";") ++ closing ")")

def tryStatement (g : Nested) : Rule :=
  node .phrase
    (tok "try"
      ++ (resources g ++ block g ++ zeroOrMore (catchClause g) ++ optional (finallyClause g)
        <|> block g
          ++ (oneOrMore (catchClause g) ++ optional (finallyClause g) <|> finallyClause g)))

/-! ## Statements -/

def synchronizedStatement (g : Nested) : Rule :=
  node .phrase (tok "synchronized" ++ parenthesized g ++ block g)

def assertStatement (g : Nested) : Rule :=
  node .phrase
    (tok "assert" ++ g .expression ++ optional (tok ":" ++ g .expression) ++ closing ";")

/-- A jump to the end or the start of an enclosing statement. -/
def jumpStatement : Rule :=
  node .phrase (anyOf ["break", "continue"] ++ optional (word Word.any) ++ closing ";")

def returnStatement (g : Nested) : Rule :=
  node .phrase (tok "return" ++ optional (g .expression) ++ closing ";")

def yieldStatement (g : Nested) : Rule :=
  node .phrase (tok "yield" ++ g .expression ++ closing ";")

def labeledStatement (g : Nested) : Rule :=
  node .phrase (word Word.namesType ++ tok ":" ++ g .statement)

/-- Declarations of every kind are statements too. -/
def statement (g : Nested) : Rule :=
  block g
    <|> tok ";"
    <|> labeledStatement g
    <|> ifStatement g
    <|> whileStatement g
    <|> doStatement g
    <|> forStatement g
    <|> tryStatement g
    <|> synchronizedStatement g
    <|> assertStatement g
    <|> jumpStatement
    <|> returnStatement g
    <|> throwStatement g
    <|> yieldStatement g
    <|> packageDeclaration g
    <|> importDeclaration
    <|> moduleDeclaration g
    <|> g .typeDeclaration
    <|> localVariable g
    <|> g .switch
    <|> expressionStatement g

end Grammar

end Java

end SymbolTable
