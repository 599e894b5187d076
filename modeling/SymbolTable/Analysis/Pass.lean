import SymbolTable.Analysis.Builder

/-!
# Passes

An analysis walks every unit in the declaration phase and then every unit again in the structural
phase. The tree of a unit is merged into the application before the next unit is walked. Each pass
tells what it did as a list of events.
-/

namespace SymbolTable

open Json (Value)

inductive Progress where
  | passStart (phase : Phase) (files : Nat)
  | parseFailed (path error : String)
  | fileWalked (phase : Phase) (file : String) (components : Nat)
  | merged (phase : Phase) (file : String) (totalComponents : Nat)
  deriving DecidableEq, Repr

def Phase.toJson : Phase → Value
  | .declaration => .string "Declaration"
  | .structural => .string "Structure"

namespace Progress

def toJson : Progress → Value
  | .passStart phase files =>
    .object [("event", .string "pass_start"), ("phase", phase.toJson), ("files", .natural files)]
  | .parseFailed path error =>
    .object [("event", .string "parse_failed"), ("path", .string path), ("error", .string error)]
  | .fileWalked phase file components =>
    .object
      [("event", .string "file_walked"), ("phase", phase.toJson), ("file", .string file),
        ("components", .natural components)]
  | .merged phase file total =>
    .object
      [("event", .string "merged"), ("phase", phase.toJson), ("file", .string file),
        ("total_components", .natural total)]

end Progress

/-- An analysis in progress: the application so far and the scope reused for each file. -/
structure Analyzer where
  application : Application
  scope : Scope := {}
  deriving DecidableEq, Repr, Inhabited

namespace Analyzer

def new (naming : Naming) : Analyzer := { application := { naming } }

def registerLibrary (a : Analyzer) (l : Library) : Analyzer × Bool :=
  let (application, added) := a.application.addLibrary l
  ({ a with application }, added)

def withLibraries (naming : Naming) (libraries : List Library) : Analyzer :=
  libraries.foldl (fun a l => (a.registerLibrary l).1) (new naming)

/-- Names the revision under analysis and starts with a fresh scope. -/
def setRevision (a : Analyzer) (id : String) : Analyzer :=
  { application := { a.application with revisionId := some id }
    scope := { revisionId := some id } }

/-- Walks and merges one unit. -/
def absorb (phase : Phase) (a : Analyzer) (u : CompilationUnit) : Analyzer × List Progress :=
  let (tree, scope) := a.scope.build a.application phase u
  let application := a.application.merge tree
  ({ application, scope },
    [.fileWalked phase u.sourceName (tree.size - 1),
      .merged phase u.sourceName (application.components.size - 1)])

def absorbAll (phase : Phase) (a : Analyzer) : List CompilationUnit → Analyzer × List Progress
  | [] => (a, [])
  | u :: rest =>
    let (a, progress) := a.absorb phase u
    let (a, more) := a.absorbAll phase rest
    (a, progress ++ more)

/-- Walks and merges every unit once, in order. -/
def runPass (a : Analyzer) (phase : Phase) (units : List CompilationUnit) :
    Analyzer × List Progress :=
  let (a, progress) := a.absorbAll phase units
  ({ a with scope := a.scope.fullReset }, .passStart phase units.length :: progress)

/-- Runs both passes. -/
def run (a : Analyzer) (units : List CompilationUnit) : Application × List Progress :=
  let (a, first) := a.runPass .declaration units
  let (a, second) := a.runPass .structural units
  (a.application, first ++ second)

end Analyzer

/-- The symbol table of parsed units. -/
def analyze (naming : Naming) (libraries : List Library) (units : List CompilationUnit) :
    Application × List Progress :=
  (Analyzer.withLibraries naming libraries).run units

end SymbolTable
