/-!
# The keystream behind random draws

A stream cipher with a key of eight 32-bit words, in twelve rounds, run on a counter. Block number
`n` of the stream is computed from the key and `n` alone, so a position in the stream is a number
and nothing has to be buffered. All arithmetic wraps.

The state of a block is four rows of four words. A round works on the four columns at once; the
rows are then turned against each other, so that the next round works on the diagonals.
-/

namespace Formulary.Keystream

/-- A row of the state. -/
structure Row where
  w0 : UInt32
  w1 : UInt32
  w2 : UInt32
  w3 : UInt32
deriving DecidableEq, Repr, Inhabited

namespace Row

/-- An operation on the words of two rows, column by column. -/
def zipWith (f : UInt32 → UInt32 → UInt32) (a b : Row) : Row :=
  ⟨f a.w0 b.w0, f a.w1 b.w1, f a.w2 b.w2, f a.w3 b.w3⟩

/-- The bits of every word turned to the left. -/
def rotate (a : Row) (bits : UInt32) : Row :=
  let turn (w : UInt32) : UInt32 := (w <<< bits) ||| (w >>> (32 - bits))
  ⟨turn a.w0, turn a.w1, turn a.w2, turn a.w3⟩

/-- The words of a row moved by one column. -/
def turn (a : Row) : Row := ⟨a.w1, a.w2, a.w3, a.w0⟩

/-- The words of a row from left to right. -/
def toList (a : Row) : List UInt32 := [a.w0, a.w1, a.w2, a.w3]

end Row

/-- The state of a block. -/
structure Block where
  a : Row
  b : Row
  c : Row
  d : Row
deriving DecidableEq, Repr, Inhabited

namespace Block

/-- One round on the columns of a state. -/
def columns (s : Block) : Block :=
  let a := s.a.zipWith (· + ·) s.b
  let d := (s.d.zipWith (· ^^^ ·) a).rotate 16
  let c := s.c.zipWith (· + ·) d
  let b := (s.b.zipWith (· ^^^ ·) c).rotate 12
  let a := a.zipWith (· + ·) b
  let d := (d.zipWith (· ^^^ ·) a).rotate 8
  let c := c.zipWith (· + ·) d
  let b := (b.zipWith (· ^^^ ·) c).rotate 7
  ⟨a, b, c, d⟩

/-- Brings the diagonals of a state into its columns. -/
def skew (s : Block) : Block := ⟨s.a, s.b.turn, s.c.turn.turn, s.d.turn.turn.turn⟩

/-- Brings the columns of a state back to its diagonals. -/
def unskew (s : Block) : Block := ⟨s.a, s.b.turn.turn.turn, s.c.turn.turn, s.d.turn⟩

/-- A round on the columns and a round on the diagonals. -/
def doubleRound (s : Block) : Block := s.columns.skew.columns.unskew

/-- Several double rounds. -/
def rounds : Nat → Block → Block
  | 0, s => s
  | n + 1, s => rounds n s.doubleRound

/-- The sum of two states, word by word. -/
def add (s t : Block) : Block :=
  ⟨s.a.zipWith (· + ·) t.a, s.b.zipWith (· + ·) t.b, s.c.zipWith (· + ·) t.c,
    s.d.zipWith (· + ·) t.d⟩

/-- The words of a state, row by row. -/
def toList (s : Block) : List UInt32 := s.a.toList ++ s.b.toList ++ s.c.toList ++ s.d.toList

end Block

/-- The key of a stream: the two middle rows of every state. -/
structure Key where
  upper : Row
  lower : Row
deriving DecidableEq, Repr, Inhabited

namespace Key

/-- The state of the congruential generator that makes a key from a seed, one step further. -/
def step (state : UInt64) : UInt64 := state * 6364136223846793005 + 11634580027462260723

/-- The key word that a state of the generator gives. -/
def word (state : UInt64) : UInt32 :=
  let x := (((state >>> 18) ^^^ state) >>> 27).toUInt32
  let bits := (state >>> 59).toUInt32
  (x >>> bits) ||| (x <<< (32 - bits))

/-- The next four words of a key, and the state after them. -/
def row (state : UInt64) : Row × UInt64 :=
  let s1 := step state
  let s2 := step s1
  let s3 := step s2
  let s4 := step s3
  (⟨word s1, word s2, word s3, word s4⟩, s4)

/-- The key for a seed. -/
def ofSeed (seed : UInt64) : Key :=
  let (upper, state) := row seed
  let (lower, _) := row state
  ⟨upper, lower⟩

end Key

/-- The first row of every state. -/
def constants : Row := ⟨0x61707865, 0x3320646e, 0x79622d32, 0x6b206574⟩

/-- The block of a stream with a number. -/
def block (key : Key) (number : UInt64) : Block :=
  let start : Block :=
    ⟨constants, key.upper, key.lower, ⟨number.toUInt32, (number >>> 32).toUInt32, 0, 0⟩⟩
  (start.rounds 6).add start

/-- How many 64-bit words a block holds. -/
def wordsPerBlock : Nat := 8

/-- The stream repeats itself after this many 64-bit words. -/
def period : Nat := UInt64.size * wordsPerBlock

/-- The 64-bit word at a position of the stream: two words of a block, the low one first. -/
def word64 (key : Key) (position : Nat) : UInt64 :=
  let words := (block key (UInt64.ofNat (position / wordsPerBlock))).toList
  let index := position % wordsPerBlock
  let low := words.getD (2 * index) 0
  let high := words.getD (2 * index + 1) 0
  low.toUInt64 ||| (high.toUInt64 <<< 32)

end Formulary.Keystream
