import SymbolTable.Files.Access

/-!
# Volumes

A volume holds files in memory. Locations are the names from the root of the volume to an entry;
a path is walked from the root or from the working directory, through links, to a location.
-/

namespace SymbolTable

/-- Files in memory. A file that is not text has no content here. -/
structure Volume where
  root : Entry (Option String)
  workingDirectory : List String

namespace Volume

abbrev Location := List String

/-- How many links a walk goes through before it gives up. -/
def maxLinks : Nat := 40

/-- Walks the pieces of a path from `here`. Only the last piece may lead to nothing. -/
def walk (v : Volume) (links : Nat) (here : Location) : List String → Except ReadError Location
  | [] => .ok here
  | piece :: rest =>
    match v.root.at? here with
    | some (.directory entries) =>
      if piece = "" ∨ piece = "." then v.walk links here rest
      else if piece = ".." then v.walk links here.dropLast rest
      else
        match (Entry.directory entries).child? piece with
        | none => if rest = [] then .ok (here ++ [piece]) else .error .notFound
        | some (.link target) =>
          match links with
          | 0 => .error .linkLoop
          | links + 1 =>
            v.walk links (if target.isAbsolute then [] else here) (target.pieces ++ rest)
        | some _ => v.walk links (here ++ [piece]) rest
    | some _ => .error .notDirectory
    | none => .error .notFound
termination_by pieces => (links, pieces.length)

def start (v : Volume) (p : Path) : Location := if p.isAbsolute then [] else v.workingDirectory

def locate (v : Volume) (p : Path) : Except ReadError Location :=
  if p.text = "" then .error .notFound else v.walk maxLinks (v.start p) p.pieces

/-- The location that a path leads to, with the entry there. -/
def find (v : Volume) (p : Path) : Except ReadError (Location × Entry (Option String)) := do
  let location ← v.locate p
  match v.root.at? location with
  | some e => return (location, e)
  | none => .error .notFound

def pathOf (location : Location) : Path := ⟨"/" ++ "/".intercalate location⟩

def resolve (v : Volume) (p : Path) : Option Path :=
  match v.find p with
  | .ok (location, _) => some (pathOf location)
  | .error _ => none

def tree (v : Volume) (p : Path) : Entry Unit :=
  match v.find p with
  | .ok (_, e) => e.shape
  | .error _ => .directory []

def read (v : Volume) (p : Path) : Except ReadError String := do
  match ← v.find p with
  | (_, .file (some text)) => return text
  | (_, .file none) => .error .notText
  | (_, .directory _) => .error .isDirectory
  | (_, .link _) => .error .linkLoop

/-- Puts an entry where a path leads, unless a directory is there. -/
def place (v : Volume) (p : Path) (new : Entry (Option String)) : Option Volume :=
  match v.locate p with
  | .error _ => none
  | .ok location =>
    match v.root.at? location with
    | some (.directory _) => none
    | _ => some { v with root := new.put v.root location }

def write (v : Volume) (p : Path) (text : String) : Option Volume := v.place p (.file (some text))

/-- Creates the directory that the pieces lead to from `start` if it is missing. -/
def createDirectory (v : Volume) (start : Location) (pieces : List String) : Option Volume :=
  match v.walk maxLinks start pieces with
  | .error _ => none
  | .ok location =>
    match v.root.at? location with
    | some (.directory _) => some v
    | some _ => none
    | none => some { v with root := Entry.put (.directory []) v.root location }

def createDirectories (v : Volume) (p : Path) : Option Volume :=
  if p.text = "" then some v
  else
    (List.range p.pieces.length).foldlM
      (fun v n => v.createDirectory (v.start p) (p.pieces.take (n + 1))) v

/-- Keeps the volume as it is if an operation on it fails. -/
def attempt (operation : Volume → Option Volume) : StateM Volume Bool := fun v =>
  match operation v with
  | some v => (true, v)
  | none => (false, v)

/-- The files of the volume at hand. -/
def fileSystem : FileSystem (StateM Volume) where
  resolve p := fun v => (v.resolve p, v)
  tree p := fun v => (v.tree p, v)
  read p := fun v => (v.read p, v)
  write p text := attempt (·.write p text)
  createDirectories p := attempt (·.createDirectories p)

end Volume

end SymbolTable
