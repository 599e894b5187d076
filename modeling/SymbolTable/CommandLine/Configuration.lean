import SymbolTable.Files.Access
import SymbolTable.Naming
import SymbolTable.Toml.Printer
import SymbolTable.Toml.Reader

/-!
# Configuration

The configuration file is a TOML document of two tables: how names are written and which libraries
every analysis starts with. What it leaves out has a default, and so has a file that is not there.
-/

namespace SymbolTable

structure Configuration where
  naming : Naming := {}
  libraryPaths : List Path := []
  deriving DecidableEq, Repr, Inhabited

namespace Configuration

open Toml (Value)

def namingOf? (v : Value) : Option Naming := do
  match ← v.record? ["unique_delimiter", "nested_type_separator", "default_package"] with
  | [delimiter, nestedSeparator, defaultPackage] =>
    let default : Naming := {}
    return {
      delimiter := ← Value.fieldOr default.delimiter Value.text? delimiter
      nestedSeparator := ← Value.fieldOr default.nestedSeparator Value.text? nestedSeparator
      defaultPackage := ← Value.fieldOr default.defaultPackage Value.text? defaultPackage }
  | _ => none

def libraryPathsOf? (v : Value) : Option (List Path) := do
  match ← v.record? ["paths"] with
  | [paths] => return (← Value.fieldOr [] Value.texts? paths).map Path.mk
  | _ => none

def ofToml? (v : Value) : Option Configuration := do
  match ← v.record? ["analysis", "libraries"] with
  | [analysis, libraries] =>
    return {
      naming := ← Value.fieldOr {} namingOf? analysis
      libraryPaths := ← Value.fieldOr [] libraryPathsOf? libraries }
  | _ => none

/-- Reads the content of a configuration file. -/
def decode (text : String) : Option Configuration := (Toml.read text).bind ofToml?

/-- The content of a configuration file. -/
def encode (c : Configuration) : String :=
  "[analysis]\n" ++
    "unique_delimiter = " ++ Toml.quote c.naming.delimiter ++ "\n" ++
    "nested_type_separator = " ++ Toml.quote c.naming.nestedSeparator ++ "\n" ++
    "default_package = " ++ Toml.quote c.naming.defaultPackage ++ "\n\n" ++
    "[libraries]\n" ++
    "paths = " ++ Toml.quoteList (c.libraryPaths.map Path.text) ++ "\n"

/-! ## Its place -/

/-- The variables of the environment that tell where configuration files are. -/
structure Environment where
  home : Option String
  configHome : Option String
  deriving Repr, Inhabited

/-- The directory of the configuration. An empty variable for such files counts as unset. -/
def Environment.directory (e : Environment) : Path :=
  match e.configHome.filter (· ≠ "") with
  | some place => (Path.mk place).join ⟨"symtree"⟩
  | none => ((Path.mk (e.home.getD ".")).join ⟨".config"⟩).join ⟨"symtree"⟩

def Environment.file (e : Environment) : Path := e.directory.join ⟨"config.toml"⟩

/-- Configured libraries lie relative to the configuration. -/
def librariesIn (c : Configuration) (directory : Path) : List Path :=
  c.libraryPaths.map directory.join

inductive Problem where
  | unreadable (path : Path)
  | malformed
  | uncreatable (directory : Path)
  | unwritable (path : Path)
  deriving DecidableEq, Repr

def Problem.message : Problem → String
  | unreadable path => "failed to read " ++ path.text
  | malformed => "failed to parse config"
  | uncreatable directory => "failed to create " ++ directory.text
  | unwritable path => "failed to write " ++ path.text

variable {m : Type → Type} [Monad m]

def load (fs : FileSystem m) (e : Environment) : m (Except Problem Configuration) := do
  match ← fs.read e.file with
  | .ok text =>
    match decode text with
    | some c => return .ok c
    | none => return .error .malformed
  | .error error => return if error.isAbsence then .ok {} else .error (.unreadable e.file)

def save (fs : FileSystem m) (e : Environment) (c : Configuration) : m (Except Problem Unit) := do
  if !(← fs.createDirectories e.directory) then return .error (.uncreatable e.directory)
  if !(← fs.write e.file c.encode) then return .error (.unwritable e.file)
  return .ok ()

/-- Whether there is a configuration file, readable or not. -/
def isPresent (fs : FileSystem m) (e : Environment) : m Bool := do
  match ← fs.read e.file with
  | .ok _ => return true
  | .error error => return !error.isAbsence

end Configuration

end SymbolTable
