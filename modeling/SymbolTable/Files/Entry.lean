import SymbolTable.Files.Path

/-!
# Directory trees

A directory tree as a value. A directory lists its entries in an order of its own.
-/

namespace SymbolTable

/-- An entry of a directory tree; `α` is what is known of a regular file. -/
inductive Entry (α : Type) where
  | file (content : α)
  | link (target : Path)
  | directory (entries : List (String × Entry α))

instance {α : Type} : Inhabited (Entry α) := ⟨.directory []⟩

namespace Entry

variable {α : Type}

def isDirectory : Entry α → Bool
  | directory _ => true
  | _ => false

/-- The entry of the given name in a directory. -/
def child? : Entry α → String → Option (Entry α)
  | directory entries, name => (entries.find? (·.1 = name)).map (·.2)
  | _, _ => none

/-- The entry that the names lead to. -/
def at? (e : Entry α) : List String → Option (Entry α)
  | [] => some e
  | name :: rest => (e.child? name).bind fun child => child.at? rest

/-- Puts an entry where the names lead, in place of what is there. -/
def put (new : Entry α) : Entry α → List String → Entry α
  | _, [] => new
  | directory entries, name :: rest =>
    match entries.find? (·.1 = name) with
    | none => directory (entries ++ [(name, put new (directory []) rest)])
    | some (_, old) =>
      directory (entries.map fun e => if e.1 = name then (name, put new old rest) else e)
  | e, _ :: _ => e

mutual
/-- The tree without what is known of its files. -/
def shape : Entry α → Entry Unit
  | file _ => file ()
  | link target => link target
  | directory entries => directory (shapes entries)

def shapes : List (String × Entry α) → List (String × Entry Unit)
  | [] => []
  | (name, e) :: rest => (name, e.shape) :: shapes rest
end

mutual
/-- The number of entries at and below an entry. -/
def size : Entry α → Nat
  | file _ | link _ => 1
  | directory entries => sizes entries + 1

def sizes : List (String × Entry α) → Nat
  | [] => 0
  | (_, e) :: rest => e.size + sizes rest
end

theorem size_pos (e : Entry α) : 0 < e.size := by
  cases e <;> simp [size]

end Entry

end SymbolTable
