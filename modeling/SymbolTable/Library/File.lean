import SymbolTable.Files.Access
import SymbolTable.Library.Json

/-!
# Libraries on a file system
-/

namespace SymbolTable

namespace Library

inductive LoadProblem where
  | unreadable
  | malformed (e : DecodeError)
  deriving DecidableEq, Repr

structure LoadError where
  path : Path
  problem : LoadProblem
  deriving DecidableEq, Repr

def LoadError.message (e : LoadError) : String :=
  match e.problem with
  | .unreadable => "Failed to read library: " ++ e.path.text
  | .malformed .malformedText => "Failed to parse library: " ++ e.path.text
  | .malformed .malformedTree => "Library " ++ e.path.text ++ " has a malformed component tree"

inductive SaveError where
  | uncreatable (directory : Path)
  | unwritable (path : Path)
  deriving DecidableEq, Repr

def SaveError.message : SaveError → String
  | uncreatable directory => "Failed to create " ++ directory.text
  | unwritable path => "Failed to write library: " ++ path.text

variable {m : Type → Type} [Monad m]

def load (fs : FileSystem m) (path : Path) : m (Except LoadError Library) := do
  match ← fs.read path with
  | .error _ => return .error ⟨path, .unreadable⟩
  | .ok text => return (decode text).mapError fun e => ⟨path, .malformed e⟩

/-- Loads libraries in order, up to the first that cannot be loaded. -/
def loadAll (fs : FileSystem m) : List Path → m (Except LoadError (List Library))
  | [] => return .ok []
  | path :: rest => do
    match ← load fs path with
    | .error e => return .error e
    | .ok l => return (← loadAll fs rest).map (l :: ·)

/-- Saves a library, with the directory it lies in if that is missing. -/
def save (fs : FileSystem m) (l : Library) (path : Path) : m (Except SaveError Unit) := do
  if !(← fs.createDirectories path.parent) then return .error (.uncreatable path.parent)
  if !(← fs.write path l.encode) then return .error (.unwritable path)
  return .ok ()

end Library

end SymbolTable
