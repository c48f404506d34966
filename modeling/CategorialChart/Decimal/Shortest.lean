/-!
# Shortest decimals

A binary number `m * 2 ^ q` stands for all the reals that round to it: those up to half the gap to
each of its two neighbours, the end points included exactly if `m` is even. The shortest decimal
that reads back as the number is found on the coarsest grid of powers of ten that has a point
among these reals, and it is the nearest such point of that grid.

* `Binary`: a positive binary number, with the one place where the gaps on its two sides differ.
* `Binary.onGrid`: the point of one grid that reads back, if there is one. Only the two grid
  points next to the number can be nearest, so no other is tried. A tie goes to the upper one.
* `Binary.shortest`: the grids from the coarsest to the finest. The answer never ends in a zero
  digit, because the grid of the next power of ten is tried before.
* `Scaled.plain`: a decimal in positional notation, whatever its size.
-/

namespace CategorialChart.Decimal

/-- The positive number `mantissa * 2 ^ exponent`. -/
structure Binary where
  /-- The mantissa. -/
  mantissa : Nat
  /-- The exponent of two. -/
  exponent : Int
  /-- Whether the gap to the number below is half the gap to the number above. -/
  narrowBelow : Bool
deriving DecidableEq, Repr

/-- The decimal number `digits * 10 ^ exponent`. -/
structure Scaled where
  /-- The digits, as one number. -/
  digits : Nat
  /-- The exponent of ten. -/
  exponent : Int
deriving DecidableEq, Repr

/-- The point of the grid `10 ^ g` that is nearest to the number, if it reads back as the number.

The number is `mantissa * unit / den` steps of the grid, so `unit / den` steps are the gap above it.
A point reads back if it is at most half a gap away, and strictly less if the mantissa is odd. -/
def Binary.onGrid (x : Binary) (g : Int) : Option Scaled :=
  let unit := Nat.pow 10 (-g).toNat <<< x.exponent.toNat
  let den := Nat.pow 10 g.toNat <<< (-x.exponent).toNat
  let low := x.mantissa * unit / den
  let below := x.mantissa * unit % den
  let above := den - below
  let closeTo (distance : Nat) : Bool :=
    distance < unit || distance = unit && x.mantissa % 2 = 0
  let lowReads := closeTo (if x.narrowBelow then 4 * below else 2 * below)
  let highReads := closeTo (2 * above)
  if highReads && (!lowReads || above ≤ below) then some ⟨low + 1, g⟩
  else if lowReads then some ⟨low, g⟩
  else none

/-- The number itself as a decimal, with all its digits. -/
def Binary.exactly (x : Binary) : Scaled :=
  if 0 ≤ x.exponent then ⟨x.mantissa <<< x.exponent.toNat, 0⟩
  else ⟨x.mantissa * Nat.pow 5 (-x.exponent).toNat, x.exponent⟩

/-- The exponents of the grids, coarsest first: no binary64 number reaches `10 ^ 309`, and
neighbours are at least `4 * 10 ^ -324` apart. -/
def grids : List Int := (List.range 634).map fun i : Nat => (309 : Int) - i

/-- **The shortest decimal that reads back as the number.** -/
def Binary.shortest (x : Binary) : Scaled :=
  (grids.findSome? x.onGrid).getD x.exactly

/-- A decimal without an exponent: integers without a point, other numbers with digits on both sides
of it. -/
def Scaled.plain (d : Scaled) : String :=
  if 0 ≤ d.exponent then toString (d.digits * Nat.pow 10 d.exponent.toNat)
  else
    let places := (-d.exponent).toNat
    let text := (toString d.digits).toList
    let padded := List.replicate (places + 1 - text.length) '0' ++ text
    let whole := padded.take (padded.length - places)
    String.ofList (whole ++ '.' :: padded.drop whole.length)

end CategorialChart.Decimal
