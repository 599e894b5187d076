import SymbolTable.Application.Basic
import SymbolTable.Tree.Graph
import SymbolTable.Tree.Json
import SymbolTable.Tree.Outline

/-!
# Formats of a symbol table
-/

namespace SymbolTable

inductive Format where
  | text
  | json
  | dot
  deriving DecidableEq, Repr, Inhabited

namespace Format

def all : List Format := [text, json, dot]

def name : Format → String
  | text => "text"
  | json => "json"
  | dot => "dot"

def ofName? (s : String) : Option Format := all.find? (·.name = s)

/-- The format of a name in any case. No letter past ASCII has one of these as its lowercase. -/
def ofAnyCase? (s : String) : Option Format :=
  ofName? (String.ofList (s.toList.map Char.toLower))

end Format

def Application.render (app : Application) : Format → String
  | .text => app.components.outline
  | .json => app.components.toJsonText
  | .dot => app.components.graph

end SymbolTable
