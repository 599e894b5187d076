import SymbolTable.Java.Grammar.Statement

/-!
# Declarations of types and members

What follows the modifiers decides the kind of a declaration. Each kind has a rule for that part,
and the declarations of a body are a choice among such rules.
-/

namespace SymbolTable

namespace Java

namespace Cursor

/-- Whether `super` is qualified between the index `i` and the next semicolon. -/
def qualifiesSuper (lexemes : Array Lexeme) (i : Nat) : Bool :=
  if h : i + 1 < lexemes.size then
    if lexemes[i].isSymbol ";" then false
    else if (lexemes[i].isSymbol "." || lexemes[i].isSymbol ">")
        && lexemes[i + 1].isWord && lexemes[i + 1].text = "super" then true
    else qualifiesSuper lexemes (i + 1)
  else false
termination_by lexemes.size - i

end Cursor

open Rule

namespace Grammar

/-! ## Constructors and methods -/

def throwsClause (g : Nested) : Rule :=
  node .phrase (tok "throws" ++ separated (tok ",") (g .type))

/-- The call of another constructor, first in the body of a constructor. -/
def constructorCall (g : Nested) : Rule :=
  node .phrase
    ((optional (typeArguments g) ++ anyOf ["this", "super"]
        <|> check (fun c => Cursor.qualifiesSuper c.lexemes c.index)
          ++ access g ++ tok "." ++ optional (typeArguments g) ++ tok "super")
      ++ arguments g ++ closing ";")

def constructorBody (g : Nested) : Rule :=
  node .phrase
    (tok "\x7b" ++ optional (constructorCall g) ++ items "\x7d" (g .statement) ++ closing "\x7d")

def constructorRest (g : Nested) : Rule :=
  optional (typeParameters g) ++ as .name (word Word.namesMemberType)
    ++ as .parameters (formalParameters g) ++ optional (throwsClause g)
    ++ as .body (constructorBody g)

/-- The constructor of a record without its parameters. -/
def compactConstructorRest (g : Nested) : Rule :=
  as .name (word Word.namesMemberType) ++ as .body (block g)

/-- A method; `admits` tests the first word of its type. -/
def methodRest (g : Nested) (admits : String → Bool) : Rule :=
  optional (typeParameters g ++ annotations g) ++ as .type (bareType g admits)
    ++ as .name (word Word.any) ++ as .parameters (formalParameters g) ++ optional (dimensions g)
    ++ optional (throwsClause g) ++ (as .body (block g) <|> closing ";")

def fieldRest (g : Nested) : Rule :=
  as .type (bareType g Word.namesMemberType) ++ declarators g ++ closing ";"

def elementRest (g : Nested) : Rule :=
  as .type (bareType g Word.namesMemberType) ++ as .name (word Word.any) ++ tok "(" ++ tok ")"
    ++ optional (dimensions g) ++ optional (tok "default" ++ g .elementValue) ++ closing ";"

/-! ## Types -/

def declaredName : Rule := as .name (word Word.any)

def superInterfaces (g : Nested) : Rule :=
  node .superInterfaces (tok "implements" ++ typeList g)

def permitted (g : Nested) : Rule := node .phrase (tok "permits" ++ typeList g)

def classRest (g : Nested) : Rule :=
  tok "class" ++ declaredName ++ optional (typeParameters g)
    ++ optional (node .superclass (tok "extends" ++ g .type))
    ++ optional (superInterfaces g) ++ optional (permitted g) ++ as .body (g .classBody)

def recordRest (g : Nested) : Rule :=
  tok "record" ++ declaredName ++ optional (typeParameters g)
    ++ as .parameters (formalParameters g) ++ optional (superInterfaces g)
    ++ as .body (g .classBody)

def interfaceRest (g : Nested) : Rule :=
  tok "interface" ++ declaredName ++ optional (typeParameters g)
    ++ optional (node .extendedInterfaces (tok "extends" ++ typeList g))
    ++ optional (permitted g) ++ as .body (g .interfaceBody)

def annotationRest (g : Nested) : Rule :=
  tok "@interface" ++ declaredName ++ as .body (g .annotationBody)

def enumRest (g : Nested) : Rule :=
  tok "enum" ++ declaredName ++ optional (superInterfaces g) ++ as .body (g .enumBody)

/-- The types that every body may declare. -/
def commonTypeRests (g : Nested) : List (NodeKind × Rule) :=
  [(.classDeclaration, classRest g), (.interfaceDeclaration, interfaceRest g),
    (.enumDeclaration, enumRest g), (.annotationDeclaration, annotationRest g)]

def typeRests (g : Nested) : List (NodeKind × Rule) :=
  (.recordDeclaration, recordRest g) :: commonTypeRests g

def typeDeclaration (g : Nested) : Rule := oneOf (modifiers g) (typeRests g)

/-! ## Bodies -/

def classMember (g : Nested) : Rule :=
  tok ";"
    <|> block g
    <|> node .staticInitializer (tok "static" ++ block g)
    <|> oneOf (modifiers g)
      (typeRests g
        ++ [(.constructorDeclaration, constructorRest g),
          (.constructorDeclaration, compactConstructorRest g),
          (.methodDeclaration, methodRest g Word.namesMemberType),
          (.fieldDeclaration, fieldRest g)])

def classBody (g : Nested) : Rule := node .classBody (braces (classMember g))

def interfaceMember (g : Nested) : Rule :=
  tok ";"
    <|> oneOf (modifiers g)
      (typeRests g
        ++ [(.methodDeclaration, methodRest g Word.namesMemberType),
          (.constantDeclaration, fieldRest g)])

def interfaceBody (g : Nested) : Rule := node .interfaceBody (braces (interfaceMember g))

/-- Annotation types declare no records. -/
def annotationMember (g : Nested) : Rule :=
  tok ";"
    <|> oneOf (modifiers g)
      (commonTypeRests g
        ++ [(.annotationElement, elementRest g), (.constantDeclaration, fieldRest g)])

def annotationBody (g : Nested) : Rule := node .annotationBody (braces (annotationMember g))

def enumConstant (g : Nested) : Rule :=
  node .enumConstant
    (modifiers g ++ as .name (word Word.any) ++ optional (arguments g)
      ++ optional (as .body (g .classBody)))

def enumMembers (g : Nested) : Rule :=
  node .enumMembers (tok ";" ++ items "\x7d" (classMember g))

def enumBody (g : Nested) : Rule :=
  node .enumBody
    (tok "\x7b" ++ list (enumConstant g) ++ optional (tok ",") ++ optional (enumMembers g)
      ++ items "\x7d" fail ++ closing "\x7d")

/-! ## Whole units -/

/-- At the top level methods are declared beside types and statements. -/
def topLevelItem (g : Nested) : Rule :=
  oneOf (modifiers g) (typeRests g ++ [(.methodDeclaration, methodRest g Word.namesType)])
    <|> g .statement

end Grammar

end Java

end SymbolTable
