import SymbolTable.Tree.Consistency

/-!
# Libraries

A library is the finished tree of an external artifact. An analysis searches it and never changes
it. Its coordinates identify it.
-/

namespace SymbolTable

structure Library where
  groupId : String
  artifactId : String
  version : String
  revisionId : Option String
  components : Tree
  deriving DecidableEq, Repr, Inhabited

namespace Library

def coordinates (l : Library) : String := l.groupId ++ ":" ++ l.artifactId ++ ":" ++ l.version

end Library

end SymbolTable
