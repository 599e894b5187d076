import SymbolTable.Text.Blank

/-!
# File paths

A path is kept as it was written and compared by its steps: repeated separators, a separator at the
end and steps that stay in place do not count, apart from such a step at the very front.
-/

namespace SymbolTable

structure Path where
  text : String
  deriving DecidableEq, Repr, Inhabited

namespace Path

inductive Step where
  | root
  | here
  | up
  | entry (name : String)
  deriving DecidableEq, Repr, Inhabited

namespace Step

/-- The order of the kinds of step. -/
def rank : Step → Nat
  | root => 0
  | here => 1
  | up => 2
  | entry _ => 3

/-- Steps are ordered by kind, entries by the code points of their names. -/
def le : Step → Step → Bool
  | entry a, entry b => a ≤ b
  | a, b => a.rank ≤ b.rank

end Step

/-- The texts between the separators, empty ones included. -/
def pieces (p : Path) : List String := (Text.pieces (· = '/') p.text.toList).map String.ofList

def isAbsolute (p : Path) : Bool := p.text.toList.head? = some '/'

/-- The step that a piece behind the front stands for. -/
def stepOf : String → Option Step
  | "" | "." => none
  | ".." => some .up
  | name => some (.entry name)

def steps (p : Path) : List Step :=
  let front : List Step :=
    if p.isAbsolute then [.root]
    else if p.pieces.head? = some "." then [.here]
    else []
  front ++ p.pieces.filterMap stepOf

def stepsLe : List Step → List Step → Bool
  | [], _ => true
  | _ :: _, [] => false
  | s :: ss, t :: ts => if s = t then stepsLe ss ts else s.le t

/-- Paths are ordered by their steps, so two spellings of one path are on a par. -/
def le (p q : Path) : Bool := stepsLe p.steps q.steps

/-- The path `q` as seen from the directory `p`. -/
def join (p q : Path) : Path :=
  if q.isAbsolute then q
  else
    match p.text.toList.getLast? with
    | none | some '/' => ⟨p.text ++ q.text⟩
    | some _ => ⟨p.text ++ "/" ++ q.text⟩

/-- The name of the entry that a path leads to, if its last step names one. -/
def name? (p : Path) : Option String :=
  match p.steps.getLast? with
  | some (.entry name) => some name
  | _ => none

/-- What stands behind the last dot of a name, if anything stands before that dot. -/
def extensionOf (name : List Char) : Option (List Char) :=
  match name.reverse.span (· ≠ '.') with
  | (extension, _ :: _ :: _) => some extension.reverse
  | _ => none

def extension? (p : Path) : Option (List Char) := p.name?.bind fun name => extensionOf name.toList

/-- Java sources are told by their extension, in whatever case. -/
def isJavaSource (p : Path) : Bool := p.extension?.map (·.map Char.toLower) = some "java".toList

/-! ## Containing directory -/

/-- Drops separators and steps in place from the front of a reversed path. -/
def trimReversed : List Char → List Char
  | ['/'] => ['/']
  | '/' :: rest => trimReversed rest
  | ['.', '/'] => ['/']
  | '.' :: '/' :: rest => trimReversed rest
  | cs => cs

/-- The directory that holds the last step of a path, without the separators in between. -/
def parent (p : Path) : Path :=
  let name := (trimReversed p.text.toList.reverse).dropWhile (· ≠ '/')
  ⟨String.ofList (trimReversed name).reverse⟩

end Path

end SymbolTable
