import SymbolTable.Toml.Value

/-!
# Tables of a document

The statements of a document open tables and assign values in them. A table may be opened by one
header only, and by none if dotted keys made it; dotted keys only reach into tables that dotted keys
made. A table named as a part of another header may still be opened once.
-/

namespace SymbolTable

namespace Toml

inductive Statement where
  | openTable (path : List String)
  /-- Opens a new item of an array of tables. -/
  | openItem (path : List String)
  | assign (path : List String) (v : Value)
  deriving Repr

/-- How a table came to be. -/
inductive Origin where
  | header
  | parentOfHeader
  | dottedKey
  deriving DecidableEq, Repr

/-- A part of a document under construction. -/
inductive Node where
  | value (v : Value)
  | table (origin : Origin) (entries : List (String × Node))
  | tables (items : List (List (String × Node)))
  deriving Inhabited

abbrev Entries := List (String × Node)

namespace Entries

def get? (es : Entries) (name : String) : Option Node := (es.find? (·.1 = name)).map (·.2)

def set (es : Entries) (name : String) (n : Node) : Entries :=
  if es.any (·.1 = name) then es.map fun e => if e.1 = name then (name, n) else e
  else es ++ [(name, n)]

/-- Changes the table that a path leads to. Missing tables on the way are made as `made` says. -/
def change (made : Origin) (f : Origin → Entries → Option Entries) :
    Origin → Entries → List String → Option Entries
  | origin, es, [] => f origin es
  | _, es, name :: path =>
    match get? es name with
    | none => (change made f made [] path).map fun inner => es.set name (.table made inner)
    | some (.value _) => none
    | some (.table origin inner) =>
      if made = .dottedKey ∧ origin = .header then none
      else (change made f origin inner path).map fun inner => es.set name (.table origin inner)
    | some (.tables items) =>
      match items.getLast? with
      | none => none
      | some last =>
        (change made f .header last path).map fun last =>
          es.set name (.tables (items.dropLast ++ [last]))

/-- Assigns a value to a dotted key. -/
def assign (v : Value) (origin : Origin) (es : Entries) (path : List String) : Option Entries :=
  match path.getLast? with
  | none => none
  | some name =>
    let place (origin : Origin) (es : Entries) : Option Entries :=
      if decide (origin = .dottedKey) = decide (path.length = 1) then none
      else
        match get? es name with
        | none => some (es.set name (.value v))
        | some _ => none
    change .dottedKey place origin es path.dropLast

def openTable (es : Entries) (path : List String) : Option Entries :=
  match path.getLast? with
  | none => none
  | some name =>
    let place (_ : Origin) (es : Entries) : Option Entries :=
      match get? es name with
      | none => some (es.set name (.table .header []))
      | some (.table .parentOfHeader inner) => some (es.set name (.table .header inner))
      | some _ => none
    change .parentOfHeader place .header es path.dropLast

def openItem (es : Entries) (path : List String) : Option Entries :=
  match path.getLast? with
  | none => none
  | some name =>
    let place (_ : Origin) (es : Entries) : Option Entries :=
      match get? es name with
      | none => some (es.set name (.tables [[]]))
      | some (.tables items) => some (es.set name (.tables (items ++ [[]])))
      | some _ => none
    change .parentOfHeader place .header es path.dropLast

end Entries

mutual
def Node.toValue : Node → Value
  | .value v => v
  | .table _ entries => .table (entryValues entries)
  | .tables items => .array (itemValues items)

def entryValues : List (String × Node) → List (String × Value)
  | [] => []
  | (name, n) :: rest => (name, n.toValue) :: entryValues rest

def itemValues : List (List (String × Node)) → List Value
  | [] => []
  | entries :: rest => .table (entryValues entries) :: itemValues rest
end

/-- The entries of a document and the path of the table that is open. -/
structure Document where
  entries : Entries := []
  path : List String := []

def Document.obey (d : Document) : Statement → Option Document
  | .openTable path => (d.entries.openTable path).map fun entries => { entries, path }
  | .openItem path => (d.entries.openItem path).map fun entries => { entries, path }
  | .assign path v =>
    (d.entries.change .parentOfHeader (fun origin es => es.assign v origin path) .header d.path).map
      fun entries => { d with entries }

/-- The table that a list of statements describes. -/
def ofStatements (statements : List Statement) : Option Value :=
  (statements.foldlM Document.obey {}).map fun d => .table (entryValues d.entries)

/-- The table that a list of assignments between braces describes. -/
def ofAssignments (assignments : List (List String × Value)) : Option Value :=
  (assignments.foldlM (fun es a => Entries.assign a.2 .header es a.1) []).map fun es =>
    .table (entryValues es)

end Toml

end SymbolTable
