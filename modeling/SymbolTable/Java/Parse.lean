import SymbolTable.Java.Grammar
import SymbolTable.Java.Unit

/-!
# Parsing Java sources

A strict parse refuses every source that is not well formed. A tolerant parse reads what
declarations there are in such a source and fails only if there are none. With a fallback, the
tolerant parse follows a strict one that failed.
-/

namespace SymbolTable

namespace Java

inductive Strategy where
  | strict
  | tolerant
  deriving DecidableEq, Repr, Inhabited

inductive ParseError where
  | malformed
  | nothingRecovered
  deriving DecidableEq, Repr, Inhabited

namespace ParseError

def message (sourceName : String) : ParseError → String
  | malformed => "java source contains syntax errors: " ++ sourceName
  | nothingRecovered => "no declarations recovered from " ++ sourceName

/-- The message of a parse with a fallback that failed. -/
def fallbackMessage (sourceName : String) (e : ParseError) : String :=
  "Failed to parse " ++ sourceName ++ ": " ++ e.message sourceName

end ParseError

def readTree (strategy : Strategy) (source : List Char) (root : Node) (sourceName : String) :
    Except ParseError CompilationUnit :=
  if root.hasFlaw && strategy = .strict then .error .malformed
  else
    let reading : Reading := ⟨source.toArray, strategy = .tolerant⟩
    let unit := reading.unit root sourceName
    if root.hasFlaw && unit.isEmpty then .error .nothingRecovered else .ok unit

def parse (strategy : Strategy) (source : String) (sourceName : String) :
    Except ParseError CompilationUnit :=
  readTree strategy source.toList (.ofText source.toList) sourceName

/-- Parses strictly, then tolerantly if that failed, and tells which of the two succeeded. -/
def parseWithFallback (source : String) (sourceName : String) :
    Except ParseError (CompilationUnit × Strategy) :=
  match parse .strict source sourceName with
  | .ok unit => .ok (unit, .strict)
  | .error _ => (parse .tolerant source sourceName).map fun unit => (unit, .tolerant)

end Java

end SymbolTable
