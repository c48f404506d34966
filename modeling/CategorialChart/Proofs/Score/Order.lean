import CategorialChart.Score.Binary64
import Mathlib

/-! # Comparing scores

Some scores are undefined and compare with nothing. The others are ordered up to ties: two scores
that differ may be level, as are the two zeros. `WeaklyOrdered` says this of the comparison of any
type of scores, and `Binary64.weaklyOrdered` says that it holds of numbers of 64 bits.

For these, `Binary64.height` is the place of a number among those that are defined: by sign, then by
exponent, then by fraction. A number is below another if both are defined and its place is lower. -/

namespace CategorialChart

/-- **A comparison of scores**: a strict weak order of those that are defined. -/
structure WeaklyOrdered {σ : Type} [LT σ] (undefined : σ → Bool) : Prop where
  defined : ∀ {x y : σ}, x < y → undefined x = false ∧ undefined y = false
  irrefl : ∀ x : σ, ¬ x < x
  trans : ∀ {x y z : σ}, x < y → y < z → x < z
  notLt_trans : ∀ {x y z : σ}, undefined y = false → ¬ x < y → ¬ y < z → ¬ x < z

/-- The scores are level: neither is above the other. -/
def Level {σ : Type} [LT σ] (x y : σ) : Prop := ¬ x < y ∧ ¬ y < x

namespace Binary64

open Float.Model

/-! ### Undefined numbers -/

theorem unpack_eq_notANumber {spec : Format} (b : BitVec spec.numBits) :
    UnpackedFloat.unpack spec b = .notANumber ↔ UnpackedFloat.isNaNBits b = true := by
  unfold UnpackedFloat.isNaNBits UnpackedFloat.unpack
  dsimp only
  split_ifs <;> simp_all

/-- The magnitude is above that of the infinities if the exponent is the greatest one and the
fraction is not zero. -/
theorem isNaN_eq (x : Binary64) :
    x.isNaN = @UnpackedFloat.isNaNBits .binary64 x.bits.toBitVec := by
  have hm : x.magnitude.toNat = x.bits.toNat % 2 ^ 63 := by
    rw [magnitude, UInt64.toNat_and, ← Nat.and_two_pow_sub_one_eq_mod]
    rfl
  have hn : x.isNaN = true ↔ 0x7FF0000000000000 < x.bits.toNat % 2 ^ 63 := by
    rw [← hm, isNaN, decide_eq_true_iff, UInt64.lt_iff_toNat_lt]
    rfl
  have he : @UnpackedFloat.isNaNBits .binary64 x.bits.toBitVec = true ↔
      x.bits.toNat / 2 ^ 52 % 2 ^ 11 = 2 ^ 11 - 1 ∧ x.bits.toNat % 2 ^ 52 ≠ 0 := by
    rw [UnpackedFloat.isNaNBits, decide_eq_true_iff, UnpackedFloat.unpackExponent_def,
      UnpackedFloat.unpackMantissa_def, ← BitVec.toNat_inj, ne_eq, ← BitVec.toNat_inj,
      BitVec.extractLsb'_toNat, BitVec.extractLsb'_toNat, Nat.shiftRight_eq_div_pow]
    rfl
  rw [Bool.eq_iff_iff, hn, he]
  omega

/-- A number is undefined if the machine's number is. -/
theorem isNaN_iff (x : Binary64) : x.isNaN = true ↔ x.toFloat.toModel.unpack = .notANumber := by
  have h : x.toFloat.toModel.unpack = UnpackedFloat.unpack Format.binary64
      ((UnpackedFloat.unpack Format.binary64 x.bits.toBitVec).pack Format.binary64) := rfl
  rw [h, UnpackedFloat.pack_unpack, isNaN_eq]
  split
  · next hn => simp only [hn, UnpackedFloat.unpack_packedNaN]
  · rw [unpack_eq_notANumber]

/-! ### Defined numbers -/

/-- **The place of a number** among those that are defined. -/
def height : UnpackedFloat → ℤ ×ₗ ℤ ×ₗ ℤ
  | .infinity .negative => toLex (-2, toLex (0, 0))
  | .finite .negative fraction exponent _ => toLex (-1, toLex (-exponent, -fraction))
  | .zero _ | .notANumber => toLex (0, toLex (0, 0))
  | .finite .positive fraction exponent _ => toLex (1, toLex (exponent, fraction))
  | .infinity .positive => toLex (2, toLex (0, 0))

theorem unpacked_lt_iff (a b : UnpackedFloat) :
    a.lt b = true ↔ a ≠ .notANumber ∧ b ≠ .notANumber ∧ height a < height b := by
  rw [UnpackedFloat.lt, beq_iff_eq]
  rcases a with (_ | _) | _ | (_ | _) | ⟨_ | _, m, e, _⟩ <;>
    rcases b with (_ | _) | _ | (_ | _) | ⟨_ | _, m', e', _⟩ <;>
    simp [UnpackedFloat.compare, height, Prod.Lex.toLex_lt_toLex, Ordering.then_eq_lt,
      Ordering.then_eq_gt, Ordering.swap_eq_lt, compare_lt_iff_lt, compare_gt_iff_gt]
  -- what is left compares the signs of the two infinities
  rfl

theorem lt_iff (x y : Binary64) :
    x < y ↔ x.isNaN = false ∧ y.isNaN = false ∧
      height x.toFloat.toModel.unpack < height y.toFloat.toModel.unpack := by
  have hlt : x < y ↔ decide (x.toFloat.toModel < y.toFloat.toModel) = true := Iff.rfl
  have h := unpacked_lt_iff x.toFloat.toModel.unpack y.toFloat.toModel.unpack
  rw [ne_eq, ne_eq, ← isNaN_iff, ← isNaN_iff, Bool.not_eq_true, Bool.not_eq_true] at h
  rw [hlt, decide_eq_true_iff, ← h]
  exact Iff.rfl

/-- **Numbers of 64 bits are weakly ordered.** -/
theorem weaklyOrdered : WeaklyOrdered isNaN where
  defined h := by
    obtain ⟨hx, hy, -⟩ := (lt_iff _ _).mp h
    exact ⟨hx, hy⟩
  irrefl x h := by
    obtain ⟨-, -, hlt⟩ := (lt_iff x x).mp h
    exact lt_irrefl _ hlt
  trans h h' := by
    obtain ⟨hx, -, hxy⟩ := (lt_iff _ _).mp h
    obtain ⟨-, hz, hyz⟩ := (lt_iff _ _).mp h'
    exact (lt_iff _ _).mpr ⟨hx, hz, hxy.trans hyz⟩
  notLt_trans {x y z} hy hxy hyz h := by
    obtain ⟨hx, hz, hxz⟩ := (lt_iff x z).mp h
    rw [lt_iff, not_and, not_and] at hxy hyz
    exact absurd hxz (not_lt.mpr ((not_lt.mp (hyz hy hz)).trans (not_lt.mp (hxy hx hy))))

end Binary64

end CategorialChart
