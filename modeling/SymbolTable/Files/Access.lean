import SymbolTable.Files.Entry

/-!
# Access to files

What the commands ask of a file system, in whatever monad it answers: the machine's own files, or a
volume held in memory.
-/

namespace SymbolTable

inductive ReadError where
  | notFound
  | notDirectory
  | isDirectory
  | linkLoop
  | denied
  | notText
  deriving DecidableEq, Repr, Inhabited

def ReadError.reason : ReadError → String
  | notFound => "No such file or directory (os error 2)"
  | notDirectory => "Not a directory (os error 20)"
  | isDirectory => "Is a directory (os error 21)"
  | linkLoop => "Too many levels of symbolic links (os error 40)"
  | denied => "Permission denied (os error 13)"
  | notText => "stream did not contain valid UTF-8"

/-- The path leads to nothing. -/
def ReadError.isAbsence : ReadError → Bool
  | notFound | notDirectory | linkLoop => true
  | isDirectory | denied | notText => false

/-- The operations on files. Each follows links, apart from the tree, which shows them. -/
structure FileSystem (m : Type → Type) where
  /-- The absolute path of an existing entry, without links and steps up. -/
  resolve : Path → m (Option Path)
  /-- The entry at a resolved path with all that is below it. -/
  tree : Path → m (Entry Unit)
  read : Path → m (Except ReadError String)
  /-- Replaces or creates a file; false if that cannot be done. -/
  write : Path → String → m Bool
  /-- Creates a directory and those above it where they are missing. -/
  createDirectories : Path → m Bool

end SymbolTable
