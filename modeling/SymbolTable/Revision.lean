import SymbolTable.Digest.Blake3
import SymbolTable.Files.Path

/-!
# Revisions

A revision is identified by a digest over its files. Each file contributes its path and its content,
both closed by a zero byte; the files are taken in path order, whatever order they are given in.
-/

namespace SymbolTable

/-- A file and its text. -/
structure SourceFile where
  path : Path
  content : String
  deriving DecidableEq, Repr, Inhabited

namespace Revision

def utf8 (s : String) : List UInt8 := s.toList.flatMap String.utf8EncodeChar

/-- What a file contributes. -/
def fileBytes (f : SourceFile) : List UInt8 := utf8 f.path.text ++ 0 :: (utf8 f.content ++ [0])

/-- The message whose digest identifies a revision. Files with equal paths keep their order. -/
def bytes (files : List SourceFile) : List UInt8 :=
  (files.mergeSort fun f g => f.path.le g.path).flatMap fileBytes

def id (files : List SourceFile) : String := Blake3.hex (bytes files)

end Revision

end SymbolTable
