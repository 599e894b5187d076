import SymbolTable.Tree.Ancestry

/-!
# Coordinates and qualified names

The coordinate of a node joins the values from the outermost non-root ancestor down to the node.
Search by coordinate goes the other way: it strips one value after another off the text, so values
that contain the delimiter are found too. A qualified name joins a type nested directly in a type
with a separator of its own, and everything else with a dot.
-/

namespace SymbolTable

namespace Tree

/-- The values from the outermost non-root ancestor down to `id`; a root contributes none. -/
def pathValues (t : Tree) (id : NodeId) : List String :=
  ((t.parents id).reverse.map fun p => (t.node p).value) ++
    (if (t.node id).kind = .root then [] else [(t.node id).value])

def coordinate (t : Tree) (id : NodeId) (delimiter : String) : String :=
  delimiter.intercalate (t.pathValues id)

def locateWithin (t : Tree) (delimiter : List Char) : Nat → NodeId → List Char → Option NodeId
  | 0, _, _ => none
  | fuel + 1, above, rest =>
    (t.children above).findSome? fun child =>
      match (t.node child).value.toList.isPrefixOf? rest with
      | none => none
      | some [] => some child
      | some tail =>
        match delimiter.isPrefixOf? tail with
        | none => none
        | some next => t.locateWithin delimiter fuel child next

/-- The first node, in pre-order, whose values and delimiters spell `text`. -/
def locate (t : Tree) (text delimiter : String) : Option NodeId :=
  if text.isEmpty then none else t.locateWithin delimiter.toList t.size root text.toList

/-- The symbols from the outermost non-root ancestor down to `id`. -/
def identityPath (t : Tree) (id : NodeId) : List Symbol :=
  ((t.parents id).reverse.map fun p => (t.node p).symbol) ++
    (if (t.node id).kind = .root then [] else [(t.node id).symbol])

/-- The separator between a component of kind `above` and one of kind `below` in qualified names. -/
def separator (nested : String) (above below : ComponentKind) : String :=
  if above.isTypeDeclaration ∧ below.isTypeDeclaration then nested else "."

def qualifiedNameWithin (t : Tree) (nested : String) : Nat → NodeId → String
  | 0, id => (t.node id).value
  | fuel + 1, id =>
    match t.parent id with
    | some p =>
      if t.hasEnclosing id then
        t.qualifiedNameWithin nested fuel p ++ separator nested (t.node p).kind (t.node id).kind ++
          (t.node id).value
      else (t.node id).value
    | none => (t.node id).value

def qualifiedName (t : Tree) (id : NodeId) (nested : String) : String :=
  t.qualifiedNameWithin nested t.size id

end Tree

end SymbolTable
