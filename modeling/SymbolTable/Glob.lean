import SymbolTable.Files.Path
import SymbolTable.Regex.Text
import SymbolTable.Text.Replace

/-!
# Glob patterns

Two stars stand for any text, one star for any text without a separator, a question mark for one
character, and every other character for itself. A pattern is translated to the text of a regular
expression: it is cut at the double stars, each part at its stars, each of these at its question
marks, and what is left is escaped. Line breaks end what a double star or a question mark can stand
for. Brackets have no meaning and are refused.
-/

namespace SymbolTable

/-- A pattern that was found valid, as the expression for the texts that it takes. -/
structure Glob where
  regex : Regex
  deriving DecidableEq, Repr, Inhabited

namespace Glob

inductive PatternError where
  /-- The pattern uses brackets. -/
  | brackets (pattern : String)
  /-- The translation of the pattern is not the text of an expression. -/
  | unreadable (expression : String)
  deriving DecidableEq, Repr, Inhabited

def PatternError.message : PatternError → String
  | brackets pattern => "character classes are not supported: " ++ pattern
  | unreadable expression => "unreadable expression: " ++ expression

/-! ## Translation -/

/-- The parts of a pattern between double stars, which are found from the left. -/
def parts : List Char → List (List Char)
  | [] => [[]]
  | '*' :: '*' :: rest => [] :: parts rest
  | c :: rest => (parts rest).modifyHead (c :: ·)

/-- The expression for a part of a pattern without double stars. -/
def within (part : List Char) : List Char :=
  "[^/]*".toList.intercalate ((Text.pieces (· = '*') part).map fun name =>
    ".".toList.intercalate ((Text.pieces (· = '?') name).map Regex.escape))

/-- The expression for the texts that a pattern takes. -/
def expression (pattern : List Char) : List Char :=
  "^".toList ++ ".*".toList.intercalate ((parts pattern).map within) ++ "$".toList

def parse (pattern : String) : Except PatternError Glob :=
  let cs := pattern.toList
  if '[' ∈ cs ∨ ']' ∈ cs then .error (.brackets pattern)
  else
    match Regex.read? (expression cs) with
    | none => .error (.unreadable (String.ofList (expression cs)))
    | some regex => .ok ⟨regex⟩

/-- A pattern for paths to leave out: one that ends in a separator means all that is below. -/
def parseExclude (pattern : String) : Except PatternError Glob :=
  if pattern.toList.getLast? = some '/' then parse (pattern ++ "**") else parse pattern

/-! ## Use -/

/-- Whether the pattern stands for all of the text. -/
def isMatch (g : Glob) (text : String) : Bool := g.regex.accepts text.toList

/-- The data of version control and the usual places for build output. -/
def defaultExcludes : List Glob :=
  ["**/.git/**", "**/target/**", "**/build/**", "**/out/**"].filterMap fun pattern =>
    (parseExclude pattern).toOption

/-- Whether one of the patterns takes a path. A backslash counts as a separator. -/
def excludes (globs : List Glob) (p : Path) : Bool :=
  let text := Text.replaceChar '\\' "/" p.text
  globs.any (·.isMatch text)

end Glob

end SymbolTable
