import SymbolTable.CommandLine.Run
import SymbolTable.CommandLine.Usage

/-!
# The program

Runs the command that the arguments ask for on the files of the machine.
-/

namespace SymbolTable

namespace Machine

def readErrorOf : IO.Error → ReadError
  | .inappropriateType _ 20 _ => .notDirectory
  | .inappropriateType _ _ _ => .isDirectory
  | .permissionDenied _ _ _ => .denied
  | _ => .notFound

def succeeds (operation : IO Unit) : IO Bool := do
  try
    operation
    return true
  catch _ => return false

def resolve (p : Path) : IO (Option Path) := do
  try
    return some ⟨(← IO.FS.realPath p.text).toString⟩
  catch _ => return none

/-- The tree below a path. What is neither a file, a link nor a directory is left out. -/
partial def walk (place : IO.FS.DirEntry) : IO (Option (Entry Unit)) := do
  match (← place.path.symlinkMetadata).type with
  | .symlink =>
    let path : Path := ⟨place.path.toString⟩
    return some (.link ((← resolve path).getD path))
  | .file => return some (.file ())
  | .dir =>
    let mut entries := []
    for inner in ← place.path.readDir do
      if let some e ← walk inner then entries := (inner.fileName, e) :: entries
    return some (.directory entries.reverse)
  | .other => return none

def treeAt (p : Path) : IO (Entry Unit) := do
  let place : IO.FS.DirEntry := ⟨p.parent.text, p.name?.getD "."⟩
  return (← walk place).getD (.directory [])

def read (p : Path) : IO (Except ReadError String) := do
  try
    match String.fromUTF8? (← IO.FS.readBinFile p.text) with
    | some text => return .ok text
    | none => return .error .notText
  catch e => return .error (readErrorOf e)

def fileSystem : FileSystem IO where
  resolve := resolve
  tree := treeAt
  read := read
  write p text := succeeds (IO.FS.writeFile p.text text)
  createDirectories p :=
    if p.text.isEmpty then return true else succeeds (IO.FS.createDirAll p.text)

end Machine

/-- Prints what a command left behind. -/
def Report.print (r : Report) (milliseconds : Nat) : IO Unit := do
  if r.hasBanner then IO.eprint banner
  for p in r.events do
    IO.eprintln p.line
  IO.print r.output
  if let some s := r.summary then
    IO.eprintln (s.line ++ " | " ++ toString milliseconds ++ " ms")
    IO.eprintln ("Revision: " ++ s.revisionId)
  if let some e := r.error then
    IO.eprintln e.line

end SymbolTable

open SymbolTable in
def main (arguments : List String) : IO UInt32 := do
  match Command.ofArguments arguments with
  | .error e =>
    if e.status = 0 then IO.println e.message else IO.eprintln e.message
    return e.status.toUInt32
  | .ok command =>
    let environment : Configuration.Environment :=
      { home := ← IO.getEnv "HOME", configHome := ← IO.getEnv "XDG_CONFIG_HOME" }
    let started ← IO.monoMsNow
    let report ← command.run Machine.fileSystem environment
    report.print ((← IO.monoMsNow) - started)
    return report.status.toUInt32
