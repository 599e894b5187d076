import SymbolTable.Java.Node

/-!
# Grammar rules

A rule reads a stretch of lexemes and gives its nodes. Rules are built from each other by sequence,
ordered choice and repetition; a choice that has been made is not taken back from outside.

A rule may run leniently. It then mends what is broken: the end of a construct may be missing, and
lexemes that fit nowhere in a body are passed over one at a time. Whatever can be read without
mending is read so.
-/

namespace SymbolTable

namespace Java

structure Cursor where
  lexemes : Array Lexeme
  /-- The number of lexemes already read. -/
  index : Nat
  lenient : Bool

namespace Cursor

/-- The lexeme that is `n` lexemes ahead. -/
def peek (c : Cursor) (n : Nat) : Option Lexeme := c.lexemes[c.index + n]?

def advance (c : Cursor) : Cursor := { c with index := c.index + 1 }

def remaining (c : Cursor) : Nat := c.lexemes.size - c.index

theorem remaining_advance {c : Cursor} {l : Lexeme} (h : c.peek 0 = some l) :
    c.advance.remaining < c.remaining := by
  have := (Array.getElem?_eq_some_iff.1 h).1
  simp only [remaining, advance]
  omega

/-- The end of the last lexeme read. -/
def place (c : Cursor) : Place :=
  match c.index with
  | 0 => .origin
  | n + 1 => (c.lexemes[n]?.map Lexeme.stop).getD .origin

/-- Whether the lexeme `n` ahead is the given keyword or symbol. -/
def sees (c : Cursor) (n : Nat) (text : String) : Bool :=
  match c.peek n with
  | some l => (l.kind = .word || l.kind = .symbol) && l.text = text
  | none => false

def seesAny (c : Cursor) (n : Nat) (texts : List String) : Bool := texts.any (c.sees n)

def seesWord (c : Cursor) (n : Nat) : Bool :=
  match c.peek n with
  | some l => l.isWord
  | none => false

/-- Whether the lexemes `n` and `n + 1` ahead touch. -/
def touches (c : Cursor) (n : Nat) : Bool :=
  match c.peek n, c.peek (n + 1) with
  | some a, some b => a.stop.offset = b.start.offset
  | _, _ => false

end Cursor

structure Rule where
  run : Cursor → Option (List Node × Cursor)

namespace Rule

instance : Inhabited Rule := ⟨⟨fun _ => none⟩⟩

/-! ## Combining rules -/

/-- Reads nothing. -/
def nothing : Rule := ⟨fun c => some ([], c)⟩

def fail : Rule := ⟨fun _ => none⟩

/-- Reads nothing, where the test holds. -/
def check (test : Cursor → Bool) : Rule := ⟨fun c => if test c then some ([], c) else none⟩

def andThen (a b : Rule) : Rule :=
  ⟨fun c =>
    match a.run c with
    | none => none
    | some (ns, c) =>
      match b.run c with
      | none => none
      | some (ms, c) => some (ns ++ ms, c)⟩

instance : Append Rule := ⟨andThen⟩

def orElse (a : Rule) (b : Unit → Rule) : Rule :=
  ⟨fun c =>
    match a.run c with
    | some r => some r
    | none => (b ()).run c⟩

instance : OrElse Rule := ⟨orElse⟩

def optional (a : Rule) : Rule := a <|> nothing

def repeated (a : Rule) (c : Cursor) : List Node × Cursor :=
  match a.run c with
  | some (ns, next) =>
    if next.remaining < c.remaining then
      let (more, last) := repeated a next
      (ns ++ more, last)
    else ([], c)
  | none => ([], c)
termination_by c.remaining

/-- Reads `a` as often as it goes. -/
def zeroOrMore (a : Rule) : Rule := ⟨fun c => some (repeated a c)⟩

def oneOrMore (a : Rule) : Rule := a ++ zeroOrMore a

def separated (separator a : Rule) : Rule := a ++ zeroOrMore (separator ++ a)

/-- Gathers what `a` reads into one node. -/
def node (kind : NodeKind) (a : Rule) : Rule :=
  ⟨fun c => (a.run c).map fun (ns, c) => (Node.covering kind ns, c)⟩

/-- Reads `front` and the first of `rests` that fits behind it, gathered into one node of the kind
which belongs to that rest. -/
def oneOf (front : Rule) (rests : List (NodeKind × Rule)) : Rule :=
  ⟨fun c =>
    match front.run c with
    | none => none
    | some (ns, c) =>
      rests.findSome? fun (kind, rest) =>
        (rest.run c).map fun (ms, c) => (Node.covering kind (ns ++ ms), c)⟩

/-- Gives the first node that `a` reads a role. -/
def as (role : Role) (a : Rule) : Rule :=
  ⟨fun c =>
    (a.run c).map fun
      | (n :: ns, c) => (n.withRole role :: ns, c)
      | ([], c) => ([], c)⟩

/-- Reads suffixes as often as it goes. The node of each takes what stands before it as its first
children. -/
def suffixed (suffix : Rule) (front : List Node) (c : Cursor) : List Node × Cursor :=
  match suffix.run c with
  | some (n :: ns, next) =>
    if next.remaining < c.remaining then suffixed suffix (n.prepend front :: ns) next
    else (front, c)
  | _ => (front, c)
termination_by c.remaining

def withSuffixes (a suffix : Rule) : Rule :=
  ⟨fun c => (a.run c).map fun (ns, c) => suffixed suffix ns c⟩

/-- Goes on with a rule that depends on the single node which `a` reads. -/
def thenBy (a : Rule) (rest : Node → Rule) : Rule :=
  ⟨fun c =>
    match a.run c with
    | some ([n], c) => ((rest n).run c).map fun (ms, c) => (n :: ms, c)
    | _ => none⟩

/-! ## Lexemes -/

/-- Reads one lexeme that passes the test. -/
def lexeme (kind : NodeKind) (test : Lexeme → Bool) : Rule :=
  ⟨fun c =>
    match c.peek 0 with
    | some l => if test l then some ([.ofLexeme kind l], c.advance) else none
    | none => none⟩

/-- Reads the given keyword or symbol. -/
def tok (text : String) : Rule :=
  lexeme .token fun l => (l.kind = .word || l.kind = .symbol) && l.text = text

def anyOf (texts : List String) : Rule :=
  lexeme .token fun l => (l.kind = .word || l.kind = .symbol) && texts.contains l.text

/-- Reads a word that the test admits. -/
def word (admits : String → Bool) : Rule := lexeme .identifier fun l => l.isWord && admits l.text

/-- Reads lexemes that touch each other as one. -/
def joined (texts : List String) : Rule :=
  ⟨fun c =>
    let n := texts.length
    if texts.zipIdx.all fun (text, i) => c.sees i text && (i + 1 = n || c.touches i) then
      match c.peek 0, c.peek (n - 1) with
      | some first, some last =>
        some ([.mk .token none none first.start last.stop []], { c with index := c.index + n })
      | _, _ => none
    else none⟩

def list (a : Rule) : Rule := optional (separated (tok ",") a)

/-! ## Mending -/

/-- Runs where mending is allowed, and only there. -/
def ifLenient (a : Rule) : Rule := ⟨fun c => if c.lenient then a.run c else none⟩

/-- Something that is not there. -/
def missing : Rule := ⟨fun c => some ([.missing c.place], c)⟩

/-- The symbol that ends a construct. -/
def closing (text : String) : Rule := tok text <|> ifLenient missing

/-- Runs without mending. -/
def strictly (a : Rule) : Rule :=
  ⟨fun c =>
    (a.run { c with lenient := false }).map fun (ns, next) =>
      (ns, { next with lenient := c.lenient })⟩

/-- Items up to `stop` or the end of the text, with what is no item passed over. -/
def mended (stop : String) (item : Rule) (c : Cursor) : List Node × Cursor :=
  match _h : c.peek 0 with
  | none => ([], c)
  | some l =>
    if c.sees 0 stop then ([], c)
    else
      match (strictly item <|> item).run c with
      | some (ns, next) =>
        if next.remaining < c.remaining then
          let (more, last) := mended stop item next
          (ns ++ more, last)
        else
          let (more, last) := mended stop item c.advance
          (.misplaced l :: more, last)
      | none =>
        let (more, last) := mended stop item c.advance
        (.misplaced l :: more, last)
termination_by c.remaining
decreasing_by
  · assumption
  · exact Cursor.remaining_advance ‹_›
  · exact Cursor.remaining_advance ‹_›

/-- The items of a body that `stop` ends. -/
def items (stop : String) (item : Rule) : Rule :=
  ⟨fun c => some (if c.lenient then mended stop item c else repeated item c)⟩

/-- A body in braces. -/
def braces (item : Rule) : Rule := tok "\x7b" ++ items "\x7d" item ++ closing "\x7d"

end Rule

end Java

end SymbolTable
