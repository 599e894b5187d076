import SymbolTable.Text.Hex

/-!
# The BLAKE3 digest

The message is cut into chunks, and a chunk into blocks. The blocks of a chunk are compressed one
after the other into a chaining value. The chaining values of neighbouring chunks are joined in
pairs, level by level, until two are left; the digest is what joins these two. A message of a single
chunk has the chaining value of that chunk as its digest.
-/

namespace SymbolTable

namespace Blake3

abbrev Chain := Vector UInt32 8

abbrev Block := Vector UInt32 16

/-- The fractional parts of the square roots of the first eight primes. -/
def iv : Chain :=
  #v[0x6A09E667, 0xBB67AE85, 0x3C6EF372, 0xA54FF53A, 0x510E527F, 0x9B05688C, 0x1F83D9AB, 0x5BE0CD19]

/-! ## Compression -/

def rotateRight (w count : UInt32) : UInt32 := (w >>> count) ||| (w <<< (32 - count))

/-- Mixes two message words into four words of the state. -/
def mix (s : Block) (a b c d : Fin 16) (x y : UInt32) : Block :=
  let s := s.set a (s[a] + s[b] + x)
  let s := s.set d (rotateRight (s[d] ^^^ s[a]) 16)
  let s := s.set c (s[c] + s[d])
  let s := s.set b (rotateRight (s[b] ^^^ s[c]) 12)
  let s := s.set a (s[a] + s[b] + y)
  let s := s.set d (rotateRight (s[d] ^^^ s[a]) 8)
  let s := s.set c (s[c] + s[d])
  s.set b (rotateRight (s[b] ^^^ s[c]) 7)

/-- Mixes all message words, along the columns of the state and then along its diagonals. -/
def round (s m : Block) : Block :=
  let s := mix s 0 4 8 12 m[0] m[1]
  let s := mix s 1 5 9 13 m[2] m[3]
  let s := mix s 2 6 10 14 m[4] m[5]
  let s := mix s 3 7 11 15 m[6] m[7]
  let s := mix s 0 5 10 15 m[8] m[9]
  let s := mix s 1 6 11 12 m[10] m[11]
  let s := mix s 2 7 8 13 m[12] m[13]
  mix s 3 4 9 14 m[14] m[15]

/-- The order in which the next round takes the message words. -/
def permute (m : Block) : Block :=
  #v[m[2], m[6], m[3], m[10], m[7], m[0], m[4], m[13], m[1], m[11], m[12], m[5], m[9], m[14], m[15],
    m[8]]

def rounds : Nat → Block → Block → Block
  | 0, s, _ => s
  | n + 1, s, m => rounds n (round s m) (permute m)

/-- What a compression is for. -/
structure Purpose where
  isFirst : Bool := false
  isLast : Bool := false
  isParent : Bool := false
  isRoot : Bool := false

def Purpose.flags (p : Purpose) : UInt32 :=
  (if p.isFirst then 1 else 0) ||| (if p.isLast then 2 else 0) |||
    (if p.isParent then 4 else 0) ||| (if p.isRoot then 8 else 0)

def compress (cv : Chain) (m : Block) (counter : UInt64) (length : UInt32) (p : Purpose) : Chain :=
  let s : Block :=
    #v[cv[0], cv[1], cv[2], cv[3], cv[4], cv[5], cv[6], cv[7], iv[0], iv[1], iv[2], iv[3],
      counter.toUInt32, (counter >>> 32).toUInt32, length, p.flags]
  let s := rounds 7 s m
  #v[s[0] ^^^ s[8], s[1] ^^^ s[9], s[2] ^^^ s[10], s[3] ^^^ s[11], s[4] ^^^ s[12], s[5] ^^^ s[13],
    s[6] ^^^ s[14], s[7] ^^^ s[15]]

/-! ## Chunks -/

/-- The pieces of `n + 1` bytes that a message falls into; the last may be shorter. -/
def cut (n : Nat) : List UInt8 → List (List UInt8)
  | [] => []
  | b :: rest => (b :: rest.take n) :: cut n (rest.drop n)
termination_by bytes => bytes.length
decreasing_by simp only [List.length_drop, List.length_cons]; omega

def word (a b c d : UInt8) : UInt32 :=
  a.toUInt32 ||| (b.toUInt32 <<< 8) ||| (c.toUInt32 <<< 16) ||| (d.toUInt32 <<< 24)

/-- Words from bytes, the lowest byte first; missing bytes are zero. -/
def words : List UInt8 → List UInt32
  | [] => []
  | [a] => [word a 0 0 0]
  | [a, b] => [word a b 0 0]
  | [a, b, c] => [word a b c 0]
  | a :: b :: c :: d :: rest => word a b c d :: words rest

def block (bytes : List UInt8) : Block :=
  let ws := (words bytes).toArray
  Vector.ofFn fun i => ws.getD i 0

/-- Compresses the blocks of a chunk, of which `isFirst` tells whether it starts it. -/
def absorb (counter : UInt64) (isRoot : Bool) (cv : Chain) (isFirst : Bool) :
    List (List UInt8) → Chain
  | [] => cv
  | [b] =>
    compress cv (block b) counter b.length.toUInt32 { isFirst, isLast := true, isRoot }
  | b :: rest =>
    absorb counter isRoot (compress cv (block b) counter b.length.toUInt32 { isFirst }) false rest

def chunk (isRoot : Bool) (counter : UInt64) (bytes : List UInt8) : Chain :=
  absorb counter isRoot iv true (if bytes = [] then [[]] else cut 63 bytes)

/-! ## The tree of chunks -/

def join (isRoot : Bool) (l r : Chain) : Chain :=
  compress iv (l ++ r) 0 64 { isParent := true, isRoot }

/-- Joins neighbours; the last value stays alone if their number is odd. -/
def pairUp : List Chain → List Chain
  | l :: r :: rest => join false l r :: pairUp rest
  | cvs => cvs

theorem length_pairUp (cvs : List Chain) : (pairUp cvs).length = (cvs.length + 1) / 2 := by
  fun_induction pairUp cvs with
  | case1 l r rest ih => simp only [List.length_cons, ih]; omega
  | case2 cvs h =>
    match cvs, h with
    | [], _ => rfl
    | [_], _ => simp
    | l :: r :: rest, h => exact absurd rfl (h l r rest)

def top (cvs : List Chain) : Chain :=
  match cvs with
  | [] => iv
  | [cv] => cv
  | [l, r] => join true l r
  | a :: b :: c :: rest => top (pairUp (a :: b :: c :: rest))
termination_by cvs.length
decreasing_by simp only [length_pairUp, List.length_cons]; omega

def digest (message : List UInt8) : Chain :=
  match cut 1023 message with
  | [] => chunk true 0 []
  | [bytes] => chunk true 0 bytes
  | pieces => top (pieces.mapIdx fun i bytes => chunk false i.toUInt64 bytes)

/-! ## Text -/

/-- The eight digits of a word, lowest byte first and in each byte the high half first. -/
def wordHex (w : UInt32) : List Char :=
  [4, 0, 12, 8, 20, 16, 28, 24].map fun shift : UInt32 =>
    Text.hexDigit ((w >>> shift) &&& 15).toNat

/-- The digest of a message in lowercase hexadecimal. -/
def hex (message : List UInt8) : String :=
  String.ofList ((digest message).toList.flatMap wordHex)

end Blake3

end SymbolTable
