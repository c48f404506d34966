/-!
# Random words

A stream of random 64-bit words that is the same for every use of a seed: ChaCha with twelve
rounds in counter mode. Any word of the stream can be computed without those before it.

* `Row`: four words side by side. The state of the generator is four rows; a column round is a
  quarter round on whole rows, and so is a diagonal round after the rows have been turned.
* `StreamKey.ofSeed`: the eight key words that a seed expands to, by a linear congruential
  generator with permuted output.
* `word`: the stream. A block holds eight words, each from two neighbouring 32-bit words, low
  first.
-/

namespace CategorialChart.Random

/-- Four words side by side. -/
structure Row where
  /-- The word of the first column. -/
  a : UInt32
  /-- The word of the second column. -/
  b : UInt32
  /-- The word of the third column. -/
  c : UInt32
  /-- The word of the fourth column. -/
  d : UInt32
deriving DecidableEq, Repr

namespace Row

/-- The words of a row, from left to right. -/
def toList (r : Row) : List UInt32 := [r.a, r.b, r.c, r.d]

/-- Combines two rows, column by column. -/
def zipWith (f : UInt32 → UInt32 → UInt32) (r s : Row) : Row :=
  ⟨f r.a s.a, f r.b s.b, f r.c s.c, f r.d s.d⟩

instance : Add Row := ⟨zipWith (· + ·)⟩

instance : XorOp Row := ⟨zipWith (· ^^^ ·)⟩

/-- Rotates each word of a row to the left by `n` bits. -/
def rotate (n : UInt32) (r : Row) : Row :=
  let f (x : UInt32) : UInt32 := x <<< n ||| x >>> (32 - n)
  ⟨f r.a, f r.b, f r.c, f r.d⟩

/-- Moves each word of a row one column to the left. -/
def turn (r : Row) : Row := ⟨r.b, r.c, r.d, r.a⟩

end Row

/-- The state of the generator: sixteen words in four rows. -/
structure Grid where
  /-- The first row, which holds constants. -/
  a : Row
  /-- The second row, which holds the first half of the key. -/
  b : Row
  /-- The third row, which holds the second half of the key. -/
  c : Row
  /-- The fourth row, which holds the number of the block. -/
  d : Row
deriving DecidableEq, Repr

namespace Grid

/-- The words of a grid, row by row. -/
def toList (g : Grid) : List UInt32 := g.a.toList ++ g.b.toList ++ g.c.toList ++ g.d.toList

instance : Add Grid := ⟨fun g h => ⟨g.a + h.a, g.b + h.b, g.c + h.c, g.d + h.d⟩⟩

/-- One quarter round in every column. -/
def mixColumns (g : Grid) : Grid :=
  let a := g.a + g.b
  let d := (g.d ^^^ a).rotate 16
  let c := g.c + d
  let b := (g.b ^^^ c).rotate 12
  let a := a + b
  let d := (d ^^^ a).rotate 8
  let c := c + d
  let b := (b ^^^ c).rotate 7
  ⟨a, b, c, d⟩

/-- A column round and a diagonal round. -/
def doubleRound (g : Grid) : Grid :=
  let g := g.mixColumns
  let g := mixColumns ⟨g.a, g.b.turn, g.c.turn.turn, g.d.turn.turn.turn⟩
  ⟨g.a, g.b.turn.turn.turn, g.c.turn.turn, g.d.turn⟩

/-- The block of output that belongs to a state: twelve rounds, added to the state. -/
def block (g : Grid) : List UInt32 :=
  (g.doubleRound.doubleRound.doubleRound.doubleRound.doubleRound.doubleRound + g).toList

end Grid

/-- The key of a stream. -/
structure StreamKey where
  /-- The first four words. -/
  low : Row
  /-- The last four words. -/
  high : Row
deriving DecidableEq, Repr

namespace StreamKey

/-- One step of the generator that expands seeds. -/
def advance (s : UInt64) : UInt64 := s * 6364136223846793005 + 11634580027462260723

/-- What the generator that expands seeds puts out in a state: the high bits, mixed and rotated by
the highest five. -/
def output (s : UInt64) : UInt32 :=
  let x := (((s >>> 18) ^^^ s) >>> 27).toUInt32
  let n := (s >>> 59).toUInt32
  x >>> n ||| x <<< (32 - n)

/-- The four words that follow a state, and the state after them. -/
def nextRow (s : UInt64) : Row × UInt64 :=
  let s1 := advance s
  let s2 := advance s1
  let s3 := advance s2
  let s4 := advance s3
  (⟨output s1, output s2, output s3, output s4⟩, s4)

/-- The key that a seed expands to. -/
def ofSeed (seed : UInt64) : StreamKey :=
  let (low, s) := nextRow seed
  ⟨low, (nextRow s).1⟩

/-- The block with number `n`. -/
def block (k : StreamKey) (n : Nat) : List UInt32 :=
  Grid.block
    { a := ⟨0x61707865, 0x3320646E, 0x79622D32, 0x6B206574⟩
      b := k.low
      c := k.high
      d := ⟨n.toUInt32, (n >>> 32).toUInt32, 0, 0⟩ }

end StreamKey

/-- **Word `n` of the stream that grows from a seed.** -/
def word (seed : UInt64) (n : Nat) : UInt64 :=
  let block := (StreamKey.ofSeed seed).block (n / 8)
  let low := block.getD (2 * (n % 8)) 0
  let high := block.getD (2 * (n % 8) + 1) 0
  low.toUInt64 ||| high.toUInt64 <<< 32

end CategorialChart.Random
