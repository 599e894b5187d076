import SymbolTable.Tree.Traversal

/-!
# DOT graphs

One statement declares each attached component under its id, in pre-order, and is followed by one
statement per child link. In a quoted label only the quote is escaped.
-/

namespace SymbolTable

namespace Graph

/-- A label with a backslash before each quote. -/
def escape (label : List Char) : List Char :=
  label.flatMap fun c => if c = '"' then ['\\', '"'] else [c]

def quoted (label : String) : String := "\"" ++ String.ofList (escape label.toList) ++ "\""

end Graph

namespace Tree

def graphLabel (c : Component) : String := c.kind.label ++ ":" ++ c.value

def graphStatements (t : Tree) (id : NodeId) : List String :=
  ("    " ++ toString id ++ " [label=" ++ Graph.quoted (graphLabel (t.node id)) ++ "];\n") ::
    (t.children id).map fun c => "    " ++ toString id ++ " -> " ++ toString c ++ ";\n"

/-- The attached components as a directed graph. -/
def graph (t : Tree) : String :=
  "digraph Components \x7b\n" ++
    String.join ((root :: t.descendants root).flatMap t.graphStatements) ++ "\x7d"

end Tree

end SymbolTable
