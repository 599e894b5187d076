import SymbolTable.Java.Grammar.Type

/-!
# Variables and parameters
-/

namespace SymbolTable

namespace Java

open Rule

namespace Grammar

/-- The name of a variable with the dimensions behind it. -/
def variableName (g : Nested) : Rule :=
  as .name (word Word.namesVariable) ++ optional (dimensions g)

/-- The initial value of a variable. Where there is none after `=`, the place is left empty. -/
def initialValue (g : Nested) : Rule :=
  tok "=" ++ as .value (g .initializer <|> ifLenient missing)

def declarator (g : Nested) : Rule :=
  node .declarator (variableName g ++ optional (initialValue g))

def declarators (g : Nested) : Rule := separated (tok ",") (declarator g)

/-- The object that a method is called on, written as a parameter. -/
def receiver (g : Nested) : Rule :=
  node .phrase
    (annotations g ++ bareType g Word.namesMemberType
      ++ zeroOrMore (word (· ≠ "this") ++ tok ".") ++ tok "this")

def parameterType (g : Nested) : Rule := as .type (bareType g Word.namesMemberType)

def parameter (g : Nested) : Rule :=
  node .spreadParameter
      (modifiers g ++ bareType g Word.namesMemberType ++ tok "..." ++ declarator g)
    <|> node .formalParameter (modifiers g ++ parameterType g ++ variableName g)

def formalParameters (g : Nested) : Rule :=
  node .phrase
    (tok "("
      ++ (receiver g ++ optional (tok "," ++ list (parameter g)) <|> list (parameter g))
      ++ closing ")")

/-- Parameters without types. -/
def inferredParameters : Rule :=
  node .phrase (tok "(" ++ separated (tok ",") (word Word.namesValue) ++ tok ")")

end Grammar

end Java

end SymbolTable
