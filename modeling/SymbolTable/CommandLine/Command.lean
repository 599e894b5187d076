import SymbolTable.Application.Format
import SymbolTable.Files.Discovery
import SymbolTable.Glob

/-!
# Commands

What the program can be told to do.
-/

namespace SymbolTable

/-- Where the sources of an analysis are and what it starts with. -/
structure SourceOptions where
  path : Path
  libraries : List Path := []
  excludes : List Glob := []
  noDefaultExcludes : Bool := false
  /-- How many parses may run at once; it has no influence on the result. -/
  threads : Option Nat := none
  deriving Repr, Inhabited

structure LogOptions where
  quiet : Bool := false
  debug : Bool := false
  filter : Option String := none
  deriving Repr, Inhabited

inductive Command where
  /-- Builds the symbol table of a source tree and prints it. -/
  | analyze (source : SourceOptions) (format : Format) (output : Option Path) (events : Bool)
      (log : LogOptions)
  /-- Looks coordinates up in a source tree. -/
  | lookup (source : SourceOptions) (coordinates : List String) (log : LogOptions)
  /-- Saves a source tree as a library. -/
  | library (source : SourceOptions) (group artifact version : String) (output : Path)
      (log : LogOptions)
  | showConfiguration
  | initConfiguration
  deriving Repr, Inhabited

def SourceOptions.selection (o : SourceOptions) : Selection where
  excludes :=
    Glob.excludes (o.excludes ++ if o.noDefaultExcludes then [] else Glob.defaultExcludes)
  accepts := Path.isJavaSource

end SymbolTable
