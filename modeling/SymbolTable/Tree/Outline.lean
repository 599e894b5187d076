import SymbolTable.Tree.Traversal

/-!
# Outlines

An outline has one line per attached component, indented two spaces per level, with its attributes
in brackets. The canonical outline sorts attributes by `Attribute.precedes` and the blocks of
siblings as text, so it does not depend on the order in which a tree grew.
-/

namespace SymbolTable

namespace Component

/-- The line of a component, without indentation and line break. -/
def outlineLine (c : Component) (attributes : List Attribute) : String :=
  if attributes.isEmpty then c.display
  else c.display ++ " [" ++ ", ".intercalate (attributes.map Attribute.display) ++ "]"

def sortedAttributes (c : Component) : List Attribute :=
  c.attributes.mergeSort Attribute.precedes

end Component

namespace Tree

def indentation (depth : Nat) : String := String.join (List.replicate depth "  ")

def outlineWithin (t : Tree) : Nat → Nat → NodeId → String
  | 0, _, _ => ""
  | fuel + 1, depth, id =>
    indentation depth ++ (t.node id).outlineLine (t.node id).attributes ++ "\n" ++
      String.join ((t.children id).map (t.outlineWithin fuel (depth + 1)))

/-- The outline of the attached components, children in their stored order. -/
def outline (t : Tree) : String := t.outlineWithin (t.size + 1) 0 root

def canonicalWithin (t : Tree) : Nat → Nat → NodeId → String
  | 0, _, _ => ""
  | fuel + 1, depth, id =>
    indentation depth ++ (t.node id).outlineLine (t.node id).sortedAttributes ++ "\n" ++
      String.join (((t.children id).map (t.canonicalWithin fuel (depth + 1))).mergeSort
        fun a b => a ≤ b)

/-- The outline with attributes and sibling blocks sorted. -/
def canonicalOutline (t : Tree) : String := t.canonicalWithin (t.size + 1) 0 root

end Tree

end SymbolTable
