import CategorialChart.Decimal.Shortest
import CategorialChart.Score.Basic

/-!
# Binary floating-point numbers

Numbers of 64 and 32 bits, kept as their bits. Arithmetic and comparison are those of `Float`, in
which there is a single undefined number; the ranking of scores tells undefined numbers apart by
their sign and fraction, so a score keeps all of its bits.

* `Binary64`: comparison, product, change of sign, and the instances that the chart asks for.
* `Binary64.order`: a whole number per number, which ranks the scores: undefined numbers with their
  sign set, then `-∞`, the finite numbers with `-0` just before `0`, `∞`, and the other undefined
  numbers.
* `Binary64.text`: the shortest decimal that reads back, without an exponent.
* `Binary32.widen`, `Binary64.narrow`: between the two formats. Widening is exact, except
  that undefined numbers become quiet.
-/

namespace CategorialChart

/-- A number of 64 bits: sign, 11 bits of exponent, 52 bits of fraction. -/
structure Binary64 where
  /-- The bits of the number. -/
  bits : UInt64
deriving DecidableEq, Repr

/-- A number of 32 bits: sign, 8 bits of exponent, 23 bits of fraction. -/
structure Binary32 where
  /-- The bits of the number. -/
  bits : UInt32
deriving DecidableEq, Repr

namespace Binary64

/-- The number as the machine computes with it. -/
def toFloat (x : Binary64) : Float := Float.ofBits x.bits

/-- The bits of a computed number. -/
def ofFloat (x : Float) : Binary64 := ⟨x.toBits⟩

/-- Whether the sign is set. -/
def isNegative (x : Binary64) : Bool := 0x8000000000000000 ≤ x.bits

/-- The bits without the sign. -/
def magnitude (x : Binary64) : UInt64 := x.bits &&& 0x7FFFFFFFFFFFFFFF

/-- The magnitude of the infinities; greater ones belong to undefined numbers. -/
def infinity : UInt64 := 0x7FF0000000000000

/-- Whether the number is undefined. -/
def isNaN (x : Binary64) : Bool := infinity < x.magnitude

instance : LT Binary64 := ⟨fun x y => x.toFloat < y.toFloat⟩

instance : LE Binary64 := ⟨fun x y => x.toFloat ≤ y.toFloat⟩

instance : DecidableLT Binary64 := fun x y => inferInstanceAs (Decidable (x.toFloat < y.toFloat))

instance : DecidableLE Binary64 := fun x y => inferInstanceAs (Decidable (x.toFloat ≤ y.toFloat))

instance : Mul Binary64 := ⟨fun x y => ofFloat (x.toFloat * y.toFloat)⟩

/-- Change of sign, also of zeros. -/
instance : Neg Binary64 := ⟨fun x => ⟨x.bits ^^^ 0x8000000000000000⟩⟩

instance : OfScientific Binary64 := ⟨fun m s e => ofFloat (Float.ofScientific m s e)⟩

instance (n : Nat) : OfNat Binary64 n := ⟨ofFloat (Float.ofNat n)⟩

/-- The place of a number in the ranking. -/
def order (x : Binary64) : Int :=
  if x.isNegative then -1 - (x.magnitude.toNat : Int) else x.magnitude.toNat

instance : LogScore Binary64 where
  lowest := ⟨0xFFF0000000000000⟩
  exp x := ofFloat x.toFloat.exp
  ranks x y := y.order ≤ x.order

/-! ## Text -/

/-- The size of a finite number that is not zero. The gaps on its two sides differ if the fraction
is zero, unless the exponent below is the least one. -/
def toBinary (x : Binary64) : Decimal.Binary :=
  let exponent := (x.magnitude >>> 52).toNat
  let fraction := (x.bits &&& 0xFFFFFFFFFFFFF).toNat
  if exponent = 0 then ⟨fraction, -1074, false⟩
  else ⟨0x10000000000000 + fraction, (exponent : Int) - 1075, fraction = 0 && 1 < exponent⟩

/-- The text of a number: `NaN`, `inf`, or the shortest decimal that reads back, without an
exponent, after its sign. -/
def text (x : Binary64) : String :=
  if x.isNaN then "NaN"
  else
    let size :=
      if x.magnitude = infinity then "inf"
      else if x.magnitude = 0 then "0"
      else x.toBinary.shortest.plain
    if x.isNegative then "-" ++ size else size

instance : ToString Binary64 := ⟨text⟩

/-! ## Single precision -/

/-- The nearest number of 32 bits. An undefined number keeps its sign and as much of its fraction as
there is room for, and becomes quiet: the first bit of its fraction is set. -/
def narrow (x : Binary64) : Binary32 :=
  if x.isNaN then
    let sign : UInt32 := if x.isNegative then 0x80000000 else 0
    let fraction : UInt32 := (x.bits >>> 29).toUInt32 &&& 0x3FFFFF
    { bits := sign ||| 0x7FC00000 ||| fraction }
  else ⟨x.toFloat.toFloat32.toBits⟩

end Binary64

namespace Binary32

/-- Whether the number is undefined. -/
def isNaN (x : Binary32) : Bool := 0x7F800000 < x.bits &&& 0x7FFFFFFF

/-- The same number with 64 bits. An undefined number keeps its sign and its fraction, and becomes
quiet. -/
def widen (x : Binary32) : Binary64 :=
  if x.isNaN then
    let sign : UInt64 := if 0x80000000 ≤ x.bits then 0x8000000000000000 else 0
    let fraction : UInt64 := (x.bits &&& 0x3FFFFF).toUInt64 <<< 29
    { bits := sign ||| 0x7FF8000000000000 ||| fraction }
  else .ofFloat (Float32.ofBits x.bits).toFloat

end Binary32

end CategorialChart
