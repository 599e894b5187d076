/-!
# Regular expressions

Regular expressions over characters, their language as an inductive relation, and a matcher that
keeps the list of partial derivatives by the characters read so far.
-/

namespace SymbolTable

/-- The characters in the given ranges, or those outside of them. -/
structure CharClass where
  negated : Bool
  ranges : List (Char × Char)
  deriving DecidableEq, Repr, Inhabited

namespace CharClass

def contains (k : CharClass) (c : Char) : Bool :=
  (k.ranges.any fun r => r.1 ≤ c ∧ c ≤ r.2) != k.negated

def single (c : Char) : CharClass := ⟨false, [(c, c)]⟩

/-- Every character but `c`. -/
def except (c : Char) : CharClass := ⟨true, [(c, c)]⟩

end CharClass

inductive Regex where
  | never
  | empty
  | one (k : CharClass)
  | seq (a b : Regex)
  | either (a b : Regex)
  | star (a : Regex)
  deriving DecidableEq, Repr, Inhabited

namespace Regex

/-- The language of an expression. -/
inductive Matches : Regex → List Char → Prop
  | empty : Matches .empty []
  | one {k c} (h : k.contains c = true) : Matches (.one k) [c]
  | seq {a b s t} (ha : Matches a s) (hb : Matches b t) : Matches (.seq a b) (s ++ t)
  | left {a b s} (h : Matches a s) : Matches (.either a b) s
  | right {a b s} (h : Matches b s) : Matches (.either a b) s
  | done {a} : Matches (.star a) []
  | more {a s t} (ha : Matches a s) (hs : Matches (.star a) t) : Matches (.star a) (s ++ t)

/-! ## Shorthands -/

def char (c : Char) : Regex := one (.single c)

def range (lo hi : Char) : Regex := one ⟨false, [(lo, hi)]⟩

def among (cs : List Char) : Regex := one ⟨false, cs.map fun c => (c, c)⟩

def optional (a : Regex) : Regex := either a empty

def plus (a : Regex) : Regex := seq a (star a)

/-- All of the expressions one after the other. -/
def all (rs : List Regex) : Regex := rs.foldr seq empty

/-- Any of the expressions. -/
def any (rs : List Regex) : Regex := rs.foldr either never

/-! ## Matching -/

def nullable : Regex → Bool
  | never | one _ => false
  | empty | star _ => true
  | seq a b => a.nullable && b.nullable
  | either a b => a.nullable || b.nullable

/-- `seq a b` without an empty front. -/
def andThen (a b : Regex) : Regex := if a = empty then b else seq a b

/-- What may follow the character `c`: together these have the language of the rests. -/
def partials (c : Char) : Regex → List Regex
  | never | empty => []
  | one k => if k.contains c then [empty] else []
  | seq a b =>
    (a.partials c).map (andThen · b) ++ if a.nullable then b.partials c else []
  | either a b => a.partials c ++ b.partials c
  | star a => (a.partials c).map (andThen · (star a))

def step (states : List Regex) (c : Char) : List Regex :=
  (states.flatMap (partials c)).eraseDups

def accepts (r : Regex) (s : List Char) : Bool := (s.foldl step [r]).any nullable

/-- The length of the longest matched front, counted from `n`; `best` is the longest so far. -/
def longestFrom (states : List Regex) (n : Nat) (best : Option Nat) : List Char → Option Nat
  | [] => if states.any nullable then some n else best
  | c :: rest =>
    let best := if states.any nullable then some n else best
    if states.isEmpty then best else longestFrom (step states c) (n + 1) best rest

/-- The length of the longest front of `s` that `r` matches. -/
def longest (r : Regex) (s : List Char) : Option Nat := longestFrom [r] 0 none s

end Regex

end SymbolTable
