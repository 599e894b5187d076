import SymbolTable.Json.Reader
import SymbolTable.Library.Basic
import SymbolTable.Tree.Json

/-!
# Library files

A library is stored as indented JSON. Reading accepts any field order and unknown fields, and
refuses trees whose links disagree.
-/

namespace SymbolTable

open Json (Value)

namespace Library

def toJson (l : Library) : Value :=
  .object
    [("group_id", .string l.groupId), ("artifact_id", .string l.artifactId),
      ("version", .string l.version), ("revision_id", .ofOption .string l.revisionId),
      ("components", l.components.toJson)]

def ofJson? (v : Value) : Option Library := do
  match ← v.record? ["group_id", "artifact_id", "version", "revision_id", "components"] 5 with
  | [some groupId, some artifactId, some version, revisionId, some components] =>
    let groupId ← groupId.text?
    let artifactId ← artifactId.text?
    let version ← version.text?
    let revisionId ← Component.fieldOr none (Value.optional? Value.text?) revisionId
    let components ← Tree.ofJson? components
    return { groupId, artifactId, version, revisionId, components }
  | _ => none

/-- The content of a library file. -/
def encode (l : Library) : String := l.toJson.indented

inductive DecodeError where
  /-- The text is not JSON or does not have the fields of a library. -/
  | malformedText
  /-- The node list is not consistent. -/
  | malformedTree
  deriving DecidableEq, Repr

/-- Reads the content of a library file. -/
def decode (text : String) : Except DecodeError Library :=
  match (Json.read text).bind ofJson? with
  | none => .error .malformedText
  | some l => if l.components.isConsistent then .ok l else .error .malformedTree

end Library

end SymbolTable
