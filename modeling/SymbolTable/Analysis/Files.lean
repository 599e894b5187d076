import SymbolTable.Analysis.Pass
import SymbolTable.Files.Access
import SymbolTable.Java.Parse
import SymbolTable.Revision

/-!
# Analysis of files

Files are read and parsed one by one. One that cannot be read or parsed is reported and left out;
the rest are analyzed as a revision of their own.
-/

namespace SymbolTable

open Json (Value)

/-- Why a file has no compilation unit. -/
inductive FileFailure where
  | unreadable (e : ReadError)
  | unparsable (e : Java.ParseError)
  deriving DecidableEq, Repr, Inhabited

namespace FileFailure

def headline (p : Path) : FileFailure → String
  | unreadable _ => "Failed to read file: " ++ p.text
  | unparsable _ => "Failed to parse " ++ p.text

/-- The failure with its cause. -/
def message (p : Path) : FileFailure → String
  | unreadable e => headline p (unreadable e) ++ ": " ++ e.reason
  | unparsable e => e.fallbackMessage p.text

end FileFailure

/-- A text with the unit it was parsed into and the strategy that did it. -/
structure ParsedSource where
  content : String
  unit : CompilationUnit
  strategy : Java.Strategy
  deriving Inhabited

/-- A path and what reading it gave. -/
structure LoadedFile where
  path : Path
  content : Except ReadError String

/-- A path and what parsing its text gave. -/
structure ParsedFile where
  path : Path
  outcome : Except FileFailure ParsedSource

def LoadedFile.parse (f : LoadedFile) : ParsedFile where
  path := f.path
  outcome :=
    match f.content with
    | .error e => .error (.unreadable e)
    | .ok content =>
      match Java.parseWithFallback content f.path.text with
      | .error e => .error (.unparsable e)
      | .ok (unit, strategy) => .ok { content, unit, strategy }

namespace ParsedFile

/-- The text of a file that has a compilation unit. -/
def source? (f : ParsedFile) : Option SourceFile :=
  match f.outcome with
  | .ok parsed => some ⟨f.path, parsed.content⟩
  | .error _ => none

def unit? (f : ParsedFile) : Option CompilationUnit :=
  match f.outcome with
  | .ok parsed => some parsed.unit
  | .error _ => none

/-- The report of a file without a compilation unit. -/
def failure? (f : ParsedFile) : Option Progress :=
  match f.outcome with
  | .ok _ => none
  | .error e => some (.parseFailed f.path.text (e.message f.path))

end ParsedFile

/-- How the parses of a list of files went. -/
structure ParseMetrics where
  filesParsed : Nat := 0
  /-- Files that took the tolerant parse. -/
  retried : Nat := 0
  parseErrors : Nat := 0
  deriving DecidableEq, Repr, Inhabited

namespace ParseMetrics

/-- Counts one more file. -/
def record (m : ParseMetrics) (f : ParsedFile) : ParseMetrics :=
  match f.outcome with
  | .error _ => { m with parseErrors := m.parseErrors + 1 }
  | .ok parsed =>
    match parsed.strategy with
    | .strict => { m with filesParsed := m.filesParsed + 1 }
    | .tolerant => { m with filesParsed := m.filesParsed + 1, retried := m.retried + 1 }

/-- Counts one more file unless it could not be read, which is no parse. -/
def recordParse (m : ParseMetrics) (f : ParsedFile) : ParseMetrics :=
  match f.outcome with
  | .error (.unreadable _) => m
  | _ => m.record f

def toJson (m : ParseMetrics) : Value :=
  .object
    [("files_parsed", .natural m.filesParsed), ("retried", .natural m.retried),
      ("parse_errors", .natural m.parseErrors)]

end ParseMetrics

structure AnalysisSummary where
  /-- All files, parsed or not. -/
  files : Nat
  /-- The components of the application, without the root. -/
  components : Nat
  libraries : Nat
  revisionId : String
  parser : ParseMetrics
  deriving DecidableEq, Repr, Inhabited

def AnalysisSummary.toJson (s : AnalysisSummary) : Value :=
  .object
    [("files", .natural s.files), ("components", .natural s.components),
      ("libraries", .natural s.libraries), ("revision_id", .string s.revisionId),
      ("parser", s.parser.toJson)]

/-- A finished analysis and how it went. -/
structure FileAnalysis where
  application : Application
  progress : List Progress
  summary : AnalysisSummary

/-- Analyzes the files that can be read and parsed, in the given order. -/
def analyzeFiles (naming : Naming) (libraries : List Library) (files : List LoadedFile) :
    FileAnalysis :=
  let files := files.map LoadedFile.parse
  let revisionId := Revision.id (files.filterMap ParsedFile.source?)
  let analyzer := (Analyzer.withLibraries naming libraries).setRevision revisionId
  let (application, progress) := analyzer.run (files.filterMap ParsedFile.unit?)
  { application
    progress := files.filterMap ParsedFile.failure? ++ progress
    summary :=
      { files := files.length
        components := application.components.size - 1
        libraries := application.libraries.length
        revisionId
        parser := files.foldl ParseMetrics.record {} } }

end SymbolTable
