import SymbolTable.CommandLine.Arguments

/-!
# Texts about the program
-/

namespace SymbolTable

/-- The name of the program and its version. -/
def versionLine : String := "symtree 1.0.0"

def banner : String :=
  "\n" ++
    "    ╭──────────────────────────────────────╮\n" ++
    "    │                                      │\n" ++
    "    │          S Y M T R E E               │\n" ++
    "    │                                      │\n" ++
    "    │     Two-pass Java symbol tables      │\n" ++
    "    │     Version: 1.0.0                   │\n" ++
    "    │                                      │\n" ++
    "    ╰──────────────────────────────────────╯\n\n"

def usage : String :=
  "symtree - two-pass symbol tables for Java source trees\n\n" ++
    "Usage:\n" ++
    "  symtree analyze PATH [--format text|json|dot] [--output FILE] [--events]\n" ++
    "  symtree lookup PATH COORDINATE...\n" ++
    "  symtree library PATH --group ID --artifact ID --version VERSION --output FILE\n" ++
    "  symtree config show|init\n\n" ++
    "Options of analyze, lookup and library:\n" ++
    "  --library FILE          register a library before the passes run\n" ++
    "  --exclude PATTERNS      leave out paths that match, patterns parted by commas\n" ++
    "  --no-default-excludes   do not leave out version control and build output\n" ++
    "  --threads N             number of threads\n" ++
    "  --quiet                 print errors only\n" ++
    "  --debug                 print more\n" ++
    "  --log-filter FILTER     what to log\n"

def UsageError.message : UsageError → String
  | missingArgument => "error: a required argument is missing"
  | unknownArgument => "error: unexpected argument"
  | invalidValue => "error: a value is missing or not possible"
  | refusedValue => "error: invalid value"
  | needlessValue => "error: a flag takes no value"
  | repeatedArgument => "error: an argument is given twice"
  | unknownCommand => "error: unknown command"
  | helpWanted | commandWanted => usage
  | versionWanted => versionLine

/-- Asking for help or for the version is no failure. -/
def UsageError.status : UsageError → Nat
  | helpWanted | versionWanted => 0
  | _ => 2

end SymbolTable
