import SymbolTable.Java.Grammar.Type

/-!
# Packages, imports and modules
-/

namespace SymbolTable

namespace Java

open Rule

namespace Grammar

def packageDeclaration (g : Nested) : Rule :=
  node .packageDeclaration (annotations g ++ tok "package" ++ name ++ closing ";")

def importDeclaration : Rule :=
  node .importDeclaration
    (tok "import" ++ optional (lexeme .staticMark fun l => l.isWord && l.text = "static") ++ name
      ++ optional (tok "." ++ lexeme .asterisk (·.isSymbol "*")) ++ closing ";")

def names : Rule := separated (tok ",") name

def moduleDirective : Rule :=
  node .phrase
    (tok "requires" ++ zeroOrMore (anyOf ["transitive", "static"]) ++ name ++ tok ";"
      <|> anyOf ["exports", "opens"] ++ name ++ optional (tok "to" ++ names) ++ tok ";"
      <|> tok "uses" ++ name ++ tok ";"
      <|> tok "provides" ++ name ++ tok "with" ++ names ++ tok ";")

def moduleDeclaration (g : Nested) : Rule :=
  node .phrase
    (annotations g ++ optional (tok "open") ++ tok "module" ++ name ++ tok "\x7b"
      ++ zeroOrMore moduleDirective ++ tok "\x7d")

end Grammar

end Java

end SymbolTable
