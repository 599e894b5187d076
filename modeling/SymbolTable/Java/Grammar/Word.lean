/-!
# Words

Which words may stand as names. A keyword is one only where the grammar has a use for it: at the
start of a statement or an operand, or at the start of a member. Elsewhere every word is a name.
-/

namespace SymbolTable

namespace Java

namespace Word

/-- The keywords among the modifiers. -/
def modifiers : List String :=
  ["public", "protected", "private", "abstract", "static", "final", "strictfp", "default",
    "synchronized", "native", "transient", "volatile", "sealed"]

def primitives : List String :=
  ["byte", "short", "int", "long", "char", "float", "double", "boolean", "void"]

/-- The words that open a type declaration. -/
def declarations : List String := ["class", "interface", "enum", "record"]

/-- Words that name values but no types. -/
def valuesOnly : List String := ["open", "module", "record", "with", "yield", "sealed"]

/-- Words with a use of their own at the start of a statement or an operand. -/
def operators : List String :=
  ["assert", "break", "case", "continue", "do", "false", "for", "if", "import", "new", "null",
    "package", "return", "super", "switch", "this", "throw", "true", "try", "while"]

def any (_ : String) : Bool := true

/-- Whether a word can name a type at the start of a statement or an operand. -/
def namesType (word : String) : Bool :=
  !(operators.contains word || modifiers.contains word || primitives.contains word
    || declarations.contains word || valuesOnly.contains word)

/-- Whether a word can name a value at the start of an operand. -/
def namesValue (word : String) : Bool := namesType word || valuesOnly.contains word

/-- Whether a word can name a type or a constructor at the start of a member. -/
def namesMemberType (word : String) : Bool :=
  !(modifiers.contains word || primitives.contains word || declarations.contains word)

/-- Whether a word can be the name that follows a type. -/
def namesVariable (word : String) : Bool := word ≠ "instanceof"

/-- Whether a word can follow a dot inside of a type. -/
def namesInnerType (word : String) : Bool :=
  !(["class", "this", "super", "new"].contains word)

end Word

end Java

end SymbolTable
