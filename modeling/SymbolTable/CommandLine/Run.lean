import SymbolTable.Analysis.Files
import SymbolTable.Application.Report
import SymbolTable.CommandLine.Arguments
import SymbolTable.CommandLine.Configuration
import SymbolTable.Library.File

/-!
# Running commands

A command works on a file system and leaves a report behind: what it prints, its exit status and how
the analysis went. An error ends a command; what it reported before stays.
-/

namespace SymbolTable

inductive CommandError where
  /-- The configuration of an analysis cannot be used. -/
  | unconfigured
  | configuration (e : Configuration.Problem)
  | unresolved (path : Path)
  | unloaded (e : Library.LoadError)
  | unsaved (e : Library.SaveError)
  | unwritable (path : Path)
  deriving DecidableEq, Repr

def CommandError.message : CommandError → String
  | unconfigured => "failed to load configuration"
  | configuration e => e.message
  | unresolved path => "failed to resolve " ++ path.text
  | unloaded e => e.message
  | unsaved e => e.message
  | unwritable path => "failed to write " ++ path.text

structure Report where
  status : Nat := 0
  output : String := ""
  hasBanner : Bool := false
  /-- The events that were asked for. -/
  events : List Progress := []
  summary : Option AnalysisSummary := none
  error : Option CommandError := none

namespace Command

variable {m : Type → Type} [Monad m]

/-- A part of a command, which may end it with an error. -/
abbrev Action (m : Type → Type) := ExceptT CommandError (StateT Report m)

def print (text : String) : Action m Unit := modify fun r => { r with output := r.output ++ text }

/-- What succeeds or ends the command with an error. -/
def orFail {ε α : Type} (error : ε → CommandError) (e : Except ε α) : Action m α :=
  match e with
  | .ok a => return a
  | .error e => throw (error e)

def perform {α : Type} (operation : m α) : Action m α := monadLift operation

/-! ## Analysis -/

/-- The sources below a path, or nothing if the path leads nowhere. -/
def discover (fs : FileSystem m) (o : SourceOptions) : m (Option (List Path)) := do
  match ← fs.resolve o.path with
  | none => return none
  | some root => return some ((← fs.tree root).sources o.selection root)

def loadFile (fs : FileSystem m) (path : Path) : m LoadedFile := return ⟨path, ← fs.read path⟩

/-- Analyzes the sources with the configured libraries and those that were asked for. -/
def build (fs : FileSystem m) (e : Configuration.Environment) (o : SourceOptions) :
    Action m FileAnalysis := do
  let configuration ← orFail (fun _ => .unconfigured) (← perform (Configuration.load fs e))
  let some paths ← perform (discover fs o) | throw (.unresolved o.path)
  let libraryPaths := configuration.librariesIn e.directory ++ o.libraries
  let libraries ← orFail .unloaded (← perform (Library.loadAll fs libraryPaths))
  let files ← perform (paths.mapM (loadFile fs))
  return analyzeFiles configuration.naming libraries files

def analyzeSources (fs : FileSystem m) (e : Configuration.Environment) (o : SourceOptions)
    (format : Format) (output : Option Path) (events : Bool) (log : LogOptions) :
    Action m Unit := do
  if !log.quiet then modify fun r => { r with hasBanner := true }
  let analysis ← build fs e o
  if events then modify fun r => { r with events := analysis.progress }
  let text := analysis.application.render format
  match output with
  | some path => if !(← perform (fs.write path text)) then throw (.unwritable path)
  | none =>
    print text
    if text.toList.getLast? != some '\n' then print "\n"
  if !log.quiet then modify fun r => { r with summary := some analysis.summary }

def lookUp (fs : FileSystem m) (e : Configuration.Environment) (o : SourceOptions)
    (coordinates : List String) : Action m Unit := do
  let app := (← build fs e o).application
  print (String.join (coordinates.map app.report))
  if coordinates.any fun c => (app.find c).isNone then modify fun r => { r with status := 1 }

def saveLibrary (fs : FileSystem m) (e : Configuration.Environment) (o : SourceOptions)
    (groupId artifactId version : String) (output : Path) : Action m Unit := do
  let analysis ← build fs e o
  let library : Library :=
    { groupId, artifactId, version
      revisionId := some analysis.summary.revisionId
      components := analysis.application.components }
  orFail .unsaved (← perform (library.save fs output))

/-! ## Configuration -/

def showConfig (fs : FileSystem m) (e : Configuration.Environment) : Action m Unit := do
  let configuration ← orFail .configuration (← perform (Configuration.load fs e))
  print ("# " ++ e.file.text ++ "\n")
  print configuration.encode

def initConfig (fs : FileSystem m) (e : Configuration.Environment) : Action m Unit := do
  if ← perform (Configuration.isPresent fs e) then
    print ("Configuration already exists at " ++ e.file.text ++ "\n")
  else
    orFail .configuration (← perform (({} : Configuration).save fs e))
    print ("Configuration written to " ++ e.file.text ++ "\n")

/-! ## Reports -/

def action (fs : FileSystem m) (e : Configuration.Environment) : Command → Action m Unit
  | .analyze source format output events log => analyzeSources fs e source format output events log
  | .lookup source coordinates _ => lookUp fs e source coordinates
  | .library source group artifact version output _ =>
    saveLibrary fs e source group artifact version output
  | .showConfiguration => showConfig fs e
  | .initConfiguration => initConfig fs e

def run (fs : FileSystem m) (e : Configuration.Environment) (command : Command) : m Report := do
  match ← (command.action fs e).run.run {} with
  | (.ok (), report) => return report
  | (.error error, report) => return { report with status := 1, error := some error }

end Command

/-! ## Printed forms -/

def AnalysisSummary.line (s : AnalysisSummary) : String :=
  "Analysis complete: " ++ toString s.files ++ " files (" ++ toString s.parser.filesParsed ++
    " parsed, " ++ toString s.parser.parseErrors ++ " skipped) | " ++ toString s.components ++
    " components | " ++ toString s.libraries ++ " libraries"

def Progress.line (p : Progress) : String := p.toJson.compact

def CommandError.line (e : CommandError) : String := "Error: " ++ e.message

end SymbolTable
