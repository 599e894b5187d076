import SymbolTable.Java.Grammar.Declaration
import SymbolTable.Java.Lexer

/-!
# The syntax tree of a source text

The rules call each other through the nonterminals. Between two lexemes no nonterminal is entered
twice, so a depth of all nonterminals for each lexeme is enough.

A text is read strictly. Only if that fails it is read again leniently; the tree then has a flaw.
-/

namespace SymbolTable

namespace Java

namespace Grammar

def rule (g : Nested) : Nonterminal → Rule
  | .annotationUse => annotationUse g
  | .elementValue => elementValue g
  | .type => type g
  | .expression => expression g
  | .caseExpression => caseExpression g
  | .operand => operand g
  | .caseOperand => caseOperand g
  | .initializer => initializer g
  | .switch => switch g
  | .recordPattern => recordPattern g
  | .statement => statement g
  | .classBody => classBody g
  | .interfaceBody => interfaceBody g
  | .annotationBody => annotationBody g
  | .enumBody => enumBody g
  | .typeDeclaration => typeDeclaration g

/-- The rules of the nonterminals when they enter each other at most `depth` times. -/
def nested : Nat → Nested
  | 0, _ => .fail
  | depth + 1, nonterminal => ⟨fun c => (rule (nested depth) nonterminal).run c⟩

/-- The number of nonterminals. -/
def breadth : Nat := 16

/-- The items of a whole unit, and the cursor behind them. -/
def unitItems (lexemes : Array Lexeme) (lenient : Bool) : List Node × Cursor :=
  let g := nested (breadth * (lexemes.size + 1))
  let start : Cursor := ⟨lexemes, 0, lenient⟩
  if lenient then Rule.mended "" (topLevelItem g) start else Rule.repeated (topLevelItem g) start

end Grammar

namespace Node

/-- The tree of lexemes that hold no comments. It has a flaw unless they are well formed. -/
def ofLexemes (lexemes : Array Lexeme) (stop : Place) : Node :=
  let (items, c) := Grammar.unitItems lexemes false
  if c.remaining = 0 then mk .unit none none .origin stop items
  else
    mk .unit none (some .misplaced) .origin stop (Grammar.unitItems lexemes true).1

/-- The syntax tree of a source text. -/
def ofText (text : List Char) : Node :=
  let lexemes := lex text
  let tokens := (lexemes.filter fun l => !l.isComment).toArray
  (ofLexemes tokens (Place.origin.after text)).withComments (lexemes.filter Lexeme.isComment)

end Node

end Java

end SymbolTable
