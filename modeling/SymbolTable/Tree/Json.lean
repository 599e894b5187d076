import SymbolTable.Component.Json
import SymbolTable.Json.Printer
import SymbolTable.Tree.Basic

/-!
# Trees as JSON

A tree is the list of its nodes; ids are positions in it, so nothing else needs to be written.
-/

namespace SymbolTable

open Json (Value)

namespace Tree

def toJson (t : Tree) : Value :=
  .object [("nodes", .array (t.nodes.toList.map Component.toJson))]

def ofJson? (v : Value) : Option Tree := do
  match ← v.record? ["nodes"] 1 with
  | [some nodes] => return ⟨(← nodes.list? Component.ofJson?).toArray⟩
  | _ => none

/-- The indented text of a tree. -/
def toJsonText (t : Tree) : String := t.toJson.indented

end Tree

end SymbolTable
