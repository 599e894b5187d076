import SymbolTable.CommandLine.Command

/-!
# Arguments

Arguments are read from left to right. An argument with a value is settled when the next one starts
or the line ends, so an unknown argument directly behind a bad value is what gets reported. Behind
two dashes nothing is an option.
-/

namespace SymbolTable

inductive UsageError where
  | missingArgument
  | unknownArgument
  /-- A value is missing, empty, or none of the listed ones. -/
  | invalidValue
  /-- A value is refused by the rule for it. -/
  | refusedValue
  /-- A flag was given a value. -/
  | needlessValue
  /-- An argument was given twice. -/
  | repeatedArgument
  | unknownCommand
  | helpWanted
  | versionWanted
  | commandWanted
  deriving DecidableEq, Repr, Inhabited

namespace Arguments

/-- The arguments of a command as far as they were read. -/
structure Draft where
  path : Option Path := none
  libraries : List Path := []
  excludes : List Glob := []
  noDefaultExcludes : Bool := false
  threads : Option Nat := none
  format : Option Format := none
  output : Option Path := none
  events : Bool := false
  quiet : Bool := false
  debug : Bool := false
  filter : Option String := none
  coordinates : List String := []
  group : Option String := none
  artifact : Option String := none
  version : Option String := none
  deriving Inhabited

abbrev Step := Draft → Except UsageError Draft

/-! ## Values -/

def pathValue (s : String) : Except UsageError Path :=
  if s = "" then .error .invalidValue else .ok ⟨s⟩

def formatValue (s : String) : Except UsageError Format :=
  match Format.ofName? s with
  | some f => .ok f
  | none => .error .invalidValue

/-- A positive number of at most 64 bits; a plus sign may stand before it. -/
def threadsValue (s : String) : Except UsageError Nat :=
  let digits : List Char :=
    match s.toList with
    | '+' :: rest => rest
    | cs => cs
  let n : Nat := digits.foldl (fun n c => n * 10 + (c.toNat - '0'.toNat)) 0
  if digits ≠ [] ∧ digits.all Char.isDigit ∧ 0 < n ∧ n ≤ 0xFFFFFFFFFFFFFFFF then .ok n
  else .error .refusedValue

/-- Patterns between commas. -/
def excludesValue (s : String) : Except UsageError (List Glob) :=
  let patterns := (Text.pieces (· = ',') s.toList).map String.ofList
  (patterns.mapM Glob.parseExclude).mapError fun _ => .refusedValue

/-- An argument that may be given once. -/
def once {α : Type} (before : Option α) (value : Except UsageError α) :
    Except UsageError (Option α) :=
  match before with
  | some _ => .error .repeatedArgument
  | none => value.map some

def flagOnce (before : Bool) : Except UsageError Bool :=
  if before then .error .repeatedArgument else .ok true

/-! ## Options -/

inductive Effect where
  | flag (set : Step)
  | value (set : String → Step)

/-- What a command takes: its options, and how many arguments without a name. -/
structure Form where
  options : List (String × Effect) := []
  /-- The source path comes first. -/
  takesPath : Bool := false
  /-- Any number of coordinates follow the path. -/
  takesCoordinates : Bool := false

def logOptions : List (String × Effect) :=
  [("quiet", .flag fun d => do return { d with quiet := ← flagOnce d.quiet }),
    ("debug", .flag fun d => do return { d with debug := ← flagOnce d.debug }),
    ("log-filter", .value fun s d => do return { d with filter := ← once d.filter (.ok s) })]

def sourceOptions : List (String × Effect) :=
  [("library", .value fun s d => do
      return { d with libraries := d.libraries ++ [← pathValue s] }),
    ("exclude", .value fun s d => do
      return { d with excludes := d.excludes ++ (← excludesValue s) }),
    ("no-default-excludes", .flag fun d => do
      return { d with noDefaultExcludes := ← flagOnce d.noDefaultExcludes }),
    ("threads", .value fun s d => do
      return { d with threads := ← once d.threads (threadsValue s) })]

def outputOption : String × Effect :=
  ("output", .value fun s d => do return { d with output := ← once d.output (pathValue s) })

def analyzeForm : Form where
  options :=
    sourceOptions ++ logOptions ++
      [("format", .value fun s d => do return { d with format := ← once d.format (formatValue s) }),
        outputOption,
        ("events", .flag fun d => do return { d with events := ← flagOnce d.events })]
  takesPath := true

def lookupForm : Form where
  options := sourceOptions ++ logOptions
  takesPath := true
  takesCoordinates := true

def libraryForm : Form where
  options :=
    sourceOptions ++ logOptions ++
      [("group", .value fun s d => do return { d with group := ← once d.group (.ok s) }),
        ("artifact", .value fun s d => do return { d with artifact := ← once d.artifact (.ok s) }),
        ("version", .value fun s d => do return { d with version := ← once d.version (.ok s) }),
        outputOption]
  takesPath := true

/-! ## Reading -/

/-- How an argument is written. -/
inductive Shape where
  /-- Two dashes alone. -/
  | divider
  | long (name : String) (value : Option String)
  | short (letter : Char)
  | plain

def Shape.of (argument : String) : Shape :=
  match argument.toList with
  | ['-', '-'] => .divider
  | '-' :: '-' :: rest =>
    let value := (rest.dropWhile (· ≠ '=')).drop 1
    .long (String.ofList (rest.takeWhile (· ≠ '=')))
      (if '=' ∈ rest then some (String.ofList value) else none)
  | '-' :: letter :: _ => .short letter
  | _ => .plain

structure Reading where
  draft : Draft := {}
  /-- What the argument that is not settled yet does. -/
  pending : Step := .ok
  /-- The option that waits for its value. -/
  awaiting : Option (String → Step) := none
  /-- How many arguments without a name there were. -/
  placed : Nat := 0

namespace Reading

def settle (r : Reading) : Except UsageError Reading := do
  return { r with draft := ← r.pending r.draft, pending := .ok, awaiting := none }

/-- Takes an argument without a name. -/
def place (form : Form) (r : Reading) (argument : String) : Except UsageError Reading :=
  let set? : Option Step :=
    if r.placed = 0 ∧ form.takesPath then
      some fun d => do return { d with path := some (← pathValue argument) }
    else if 0 < r.placed ∧ form.takesCoordinates then
      some fun d => .ok { d with coordinates := d.coordinates ++ [argument] }
    else none
  match set? with
  | none => .error .unknownArgument
  | some set => do
    let r ← r.settle
    return { r with pending := set, placed := r.placed + 1 }

/-- Takes one argument in front of the divider. -/
def take (form : Form) (r : Reading) (argument : String) : Except UsageError Reading :=
  match Shape.of argument with
  | .divider => .ok r
  | .long "help" (some _) => .error .needlessValue
  | .long "help" none | .short 'h' => do
    let _ ← r.settle
    .error .helpWanted
  | .short _ => .error .unknownArgument
  | .long name value =>
    match form.options.lookup name, value with
    | none, _ => .error .unknownArgument
    | some (.flag _), some _ => .error .needlessValue
    | some (.flag set), none => do
      let r ← r.settle
      return { r with draft := ← set r.draft }
    | some (.value set), some value => do
      let r ← r.settle
      return { r with draft := ← set value r.draft }
    | some (.value set), none => do
      let r ← r.settle
      return { r with pending := fun _ => .error .invalidValue, awaiting := some set }
  | .plain =>
    match r.awaiting with
    | some set => .ok { r with pending := set argument, awaiting := none }
    | none => r.place form argument

/-- Takes the arguments of a command; the flag tells whether the divider is passed. -/
def takeAll (form : Form) (r : Reading) : Bool → List String → Except UsageError Draft
  | _, [] => return (← r.settle).draft
  | true, argument :: rest => do (← r.place form argument).takeAll form true rest
  | false, argument :: rest => do
    (← r.take form argument).takeAll form (argument = "--") rest

end Reading

def readDraft (form : Form) (arguments : List String) : Except UsageError Draft :=
  Reading.takeAll form {} false arguments

/-! ## Commands -/

def needed {α : Type} : Option α → Except UsageError α
  | some a => .ok a
  | none => .error .missingArgument

namespace Draft

def source (d : Draft) : Except UsageError SourceOptions := do
  return {
    path := ← needed d.path
    libraries := d.libraries
    excludes := d.excludes
    noDefaultExcludes := d.noDefaultExcludes
    threads := d.threads }

def log (d : Draft) : LogOptions := { quiet := d.quiet, debug := d.debug, filter := d.filter }

end Draft

def readAnalyze (arguments : List String) : Except UsageError Command := do
  let d ← readDraft analyzeForm arguments
  return .analyze (← d.source) (d.format.getD .text) d.output d.events d.log

def readLookup (arguments : List String) : Except UsageError Command := do
  let d ← readDraft lookupForm arguments
  let source ← d.source
  if d.coordinates = [] then .error .missingArgument
  return .lookup source d.coordinates d.log

def readLibrary (arguments : List String) : Except UsageError Command := do
  let d ← readDraft libraryForm arguments
  return .library (← d.source) (← needed d.group) (← needed d.artifact) (← needed d.version)
    (← needed d.output) d.log

def readBare (command : Command) (arguments : List String) : Except UsageError Command := do
  let _ ← readDraft {} arguments
  return command

/-- The commands of a menu by name, each with what it does with the arguments behind it. -/
abbrev Menu := List (String × (List String → Except UsageError Command))

/-- Reads the name of a command. Only the outermost menu tells the version. -/
def choose (menu : Menu) (tellsVersion : Bool) : (divided : Bool) → List String →
    Except UsageError Command
  | _, [] => .error .commandWanted
  | true, argument :: _ =>
    .error (if (menu.lookup argument).isSome then .unknownArgument else .unknownCommand)
  | false, argument :: rest =>
    match menu.lookup argument with
    | some read => read rest
    | none =>
      match Shape.of argument with
      | .divider => choose menu tellsVersion true rest
      | .long "help" none | .short 'h' => .error .helpWanted
      | .long "help" (some _) => .error .needlessValue
      | .long "version" value =>
        if !tellsVersion then .error .unknownArgument
        else .error (if value.isSome then .needlessValue else .versionWanted)
      | .short 'v' => .error (if tellsVersion then .versionWanted else .unknownArgument)
      | .long _ _ | .short _ => .error .unknownArgument
      | .plain => .error .unknownCommand

/-- Help on the command that the words lead to. -/
def readHelp (topics : List (List String)) (words : List String) : Except UsageError Command :=
  .error (if words ∈ topics then .helpWanted else .unknownCommand)

def configurationMenu : Menu :=
  [("show", readBare .showConfiguration), ("init", readBare .initConfiguration),
    ("help", readHelp [[], ["show"], ["init"], ["help"]])]

def mainMenu : Menu :=
  [("analyze", readAnalyze), ("lookup", readLookup), ("library", readLibrary),
    ("config", choose configurationMenu false false),
    ("help", readHelp [[], ["analyze"], ["lookup"], ["library"], ["config"], ["config", "show"],
      ["config", "init"], ["config", "help"], ["help"]])]

end Arguments

/-- The command that the arguments of the program ask for. -/
def Command.ofArguments (arguments : List String) : Except UsageError Command :=
  Arguments.choose Arguments.mainMenu true false arguments

end SymbolTable
