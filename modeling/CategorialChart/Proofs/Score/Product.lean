import CategorialChart.Proofs.Score.Rounding

/-! # Products of numbers of 64 bits

Finite magnitudes are multiples of the least number above zero, and their product is rounded. The
sign of a product is the product of the signs, and its magnitude is that of the magnitudes, unless
one of these is zero and the other infinite.

* `product_mono`: the product of two magnitudes is monotone.
* `mul_eq`, `isNaN_mul`: the product of two numbers.
* `fractions`: a fraction of a quantity rises with either. -/

namespace CategorialChart

namespace Binary64

open Float.Model
open Float.Model.UnpackedFloat

/-! ### Products of magnitudes -/

/-- The fraction of a magnitude, with the bit before it if there is one. -/
def fraction (m : ℕ) : ℕ := if m < 2 ^ 52 then m else 2 ^ 52 + m % 2 ^ 52

/-- How far the exponent of a magnitude is above the least one. -/
def scale (m : ℕ) : ℕ := m / 2 ^ 52 - 1

/-- How many times a finite number is the least number above zero. -/
def units (m : ℕ) : ℕ := fraction m * 2 ^ scale m

theorem fraction_lt (m : ℕ) : fraction m < 2 ^ 53 := by
  unfold fraction
  split_ifs <;> omega

theorem fraction_pos {m : ℕ} (hm : 0 < m) : 0 < fraction m := by
  unfold fraction
  split_ifs <;> omega

theorem scale_eq_zero_or (m : ℕ) : scale m = 0 ∨ 2 ^ 52 ≤ fraction m := by
  unfold scale fraction
  split_ifs <;> omega

theorem scale_fraction (m : ℕ) : scale m * 2 ^ 52 + fraction m = m := by
  unfold scale fraction
  split_ifs <;> omega

theorem units_mono : Monotone units := by
  intro m m' h
  have hm := scale_fraction m
  have hm' := scale_fraction m'
  have hlt := fraction_lt m
  have hle := scale_eq_zero_or m'
  rcases Nat.lt_or_ge (scale m) (scale m') with hscale | hscale
  · have hhalf : 2 ^ 53 * 2 ^ scale m ≤ 2 ^ 52 * 2 ^ scale m' := by
      rw [← Nat.pow_add, ← Nat.pow_add]
      exact Nat.pow_le_pow_right Nat.two_pos (by omega)
    calc fraction m * 2 ^ scale m ≤ 2 ^ 53 * 2 ^ scale m := Nat.mul_le_mul_right _ hlt.le
      _ ≤ 2 ^ 52 * 2 ^ scale m' := hhalf
      _ ≤ fraction m' * 2 ^ scale m' := Nat.mul_le_mul_right _ (by omega)
  · have heq : scale m = scale m' := by
      unfold scale at *
      omega
    unfold units
    rw [heq]
    exact Nat.mul_le_mul_right _ (by omega)

/-- **The product of two magnitudes.** It is infinite if one of them is. -/
def product (m m' : ℕ) : ℕ :=
  if m = 2047 * 2 ^ 52 ∨ m' = 2047 * 2 ^ 52 then 2047 * 2 ^ 52
  else min (2047 * 2 ^ 52) (rounded (units m * units m'))

theorem product_comm (m m' : ℕ) : product m m' = product m' m := by
  unfold product
  simp only [Nat.mul_comm (units m), or_comm]

theorem product_le (m m' : ℕ) : product m m' ≤ 2047 * 2 ^ 52 := by
  unfold product
  split_ifs
  · exact le_rfl
  · exact Nat.min_le_left _ _

theorem product_mono {m m' : ℕ} (h : m ≤ m') (hm' : m' ≤ 2047 * 2 ^ 52) (n : ℕ) :
    product m n ≤ product m' n := by
  by_cases hinf : m' = 2047 * 2 ^ 52 ∨ n = 2047 * 2 ^ 52
  · have hproduct : product m' n = 2047 * 2 ^ 52 := if_pos hinf
    rw [hproduct]
    exact product_le m n
  · unfold product
    rw [if_neg (by omega), if_neg hinf]
    exact min_le_min_left _ (rounded_mono (Nat.mul_le_mul_right _ (units_mono h)))

theorem product_zero {n : ℕ} (hn : n ≠ 2047 * 2 ^ 52) : product 0 n = 0 := by
  have hunits : units 0 * units n = 0 := Nat.zero_mul (units n)
  unfold product
  rw [if_neg (by omega), hunits, rounded_zero]
  exact Nat.min_eq_right (Nat.zero_le _)

theorem product_infinity (n : ℕ) : product (2047 * 2 ^ 52) n = 2047 * 2 ^ 52 :=
  if_pos (Or.inl rfl)

/-! ### Products of numbers -/

/-- One magnitude is zero and the other infinite. -/
def Indeterminate (m m' : ℕ) : Prop :=
  m = 0 ∧ m' = 2047 * 2 ^ 52 ∨ m = 2047 * 2 ^ 52 ∧ m' = 0

theorem read_between {s : Sign} {m : ℕ} (hm : 0 < m) (hlt : m < 2047 * 2 ^ 52) :
    read s m = .finite s (fraction m) (scale m - 1074) (fraction_pos hm) := by
  have hread := read_finite (s := s) (fraction_pos hm) (fraction_lt m) (scale_eq_zero_or m)
    ((scale_fraction m).symm ▸ hlt)
  rw [scale_fraction] at hread
  exact hread

theorem pack_mul_finite {s s' : Sign} {m m' : ℕ} (hm : 0 < m) (hlt : m < 2047 * 2 ^ 52)
    (hm' : 0 < m') (hlt' : m' < 2047 * 2 ^ 52) :
    UnpackedFloat.pack .binary64 (.mul .binary64 (read s m) (read s' m')) =
      (ofMagnitude (s * s') (product m m')).bits.toBitVec := by
  have hexponent : (scale m : ℤ) - 1074 + (scale m' - 1074) = (scale m + scale m' : ℕ) - 2148 := by
    omega
  have hunits : fraction m * fraction m' * 2 ^ (scale m + scale m') = units m * units m' := by
    unfold units
    ring
  have hk : scale m + scale m' ≤ 1074 ∨ 2 ^ 52 ≤ fraction m * fraction m' := by
    rcases scale_eq_zero_or m with hzero | hfraction
    · rcases scale_eq_zero_or m' with hzero' | hfraction'
      · omega
      · exact Or.inr (hfraction'.trans (Nat.le_mul_of_pos_left _ (fraction_pos hm)))
    · exact Or.inr (hfraction.trans (Nat.le_mul_of_pos_right _ (fraction_pos hm')))
  rw [read_between hm hlt, read_between hm' hlt', UnpackedFloat.mul, hexponent,
    pack_round _ (Nat.mul_pos (fraction_pos hm) (fraction_pos hm')) hk, hunits, product,
    if_neg (by omega)]

/-- **The product of two numbers** has the product of their magnitudes, unless there is none. -/
theorem pack_mul {s s' : Sign} {m m' : ℕ} (hm : m ≤ 2047 * 2 ^ 52) (hm' : m' ≤ 2047 * 2 ^ 52)
    (h : ¬ Indeterminate m m') :
    UnpackedFloat.pack .binary64 (.mul .binary64 (read s m) (read s' m')) =
      (ofMagnitude (s * s') (product m m')).bits.toBitVec := by
  unfold Indeterminate at h
  rcases Nat.eq_zero_or_pos m with rfl | hpos
  · rw [product_zero (by omega)]
    rcases Nat.eq_zero_or_pos m' with rfl | hpos'
    · exact pack_read (s * s') (Nat.zero_le _)
    · rw [read_between hpos' (by omega)]
      exact pack_read (s * s') (Nat.zero_le _)
  · rcases hm.eq_or_lt with rfl | hlt
    · rw [product_infinity]
      rcases hm'.eq_or_lt with rfl | hlt'
      · exact pack_read (s * s') le_rfl
      · rw [read_between (m := m') (by omega) hlt']
        exact pack_read (s * s') le_rfl
    · rcases hm'.eq_or_lt with rfl | hlt'
      · rw [product_comm, product_infinity, read_between hpos hlt]
        exact pack_read (s * s') le_rfl
      · rcases Nat.eq_zero_or_pos m' with rfl | hpos'
        · rw [product_comm, product_zero (by omega), read_between hpos hlt]
          exact pack_read (s * s') (Nat.zero_le _)
        · exact pack_mul_finite hpos hlt hpos' hlt'

theorem mul_indeterminate {s s' : Sign} {m m' : ℕ} (h : Indeterminate m m') :
    UnpackedFloat.mul .binary64 (read s m) (read s' m') = .notANumber := by
  rcases h with ⟨rfl, rfl⟩ | ⟨rfl, rfl⟩ <;> rfl

section Numbers
variable {x y : Binary64} (hx : x.isNaN = false) (hy : y.isNaN = false)
include hx hy

theorem mul_read : x * y = ⟨UInt64.ofBitVec (UnpackedFloat.pack .binary64
    (.mul .binary64 (read x.sign x.magnitude.toNat) (read y.sign y.magnitude.toNat)))⟩ := by
  rw [← unpack_toFloat hx, ← unpack_toFloat hy]
  rfl

theorem isNaN_mul (h : Indeterminate x.magnitude.toNat y.magnitude.toNat) :
    (x * y).isNaN = true := by
  rw [mul_read hx hy, mul_indeterminate h]
  rfl

theorem mul_eq (h : ¬ Indeterminate x.magnitude.toNat y.magnitude.toNat) :
    x * y = ofMagnitude (x.sign * y.sign) (product x.magnitude.toNat y.magnitude.toNat) := by
  rw [mul_read hx hy, pack_mul ((isNaN_eq_false x).mp hx) ((isNaN_eq_false y).mp hy) h]

end Numbers

/-! ### Fractions of quantities -/

theorem defined_of_nonneg {x : Binary64} (h : 0 ≤ x) : x.isNaN = false :=
  ((le_iff_place 0 x).mp h).2.1

theorem sign_of_nonneg {x : Binary64} (h : 0 ≤ x) :
    x.sign = .positive ∨ x.magnitude.toNat = 0 := by
  have hplace := ((le_iff_place 0 x).mp h).2.2
  rw [place_zero, place] at hplace
  rcases hsign : x.sign with _ | _
  · rw [hsign, Sign.apply] at hplace
    omega
  · exact Or.inl rfl

theorem apply_zero (s : Sign) : s.apply 0 = 0 := by rcases s with _ | _ <;> rfl

/-- The place of a number that is not negative is its magnitude. -/
theorem place_of_nonneg {x : Binary64} (h : 0 ≤ x) : x.place = x.magnitude.toNat := by
  unfold place
  rcases sign_of_nonneg h with hsign | hzero
  · rw [hsign, Sign.apply]
  · rw [hzero]
    exact apply_zero x.sign

section Nonneg
variable {x y : Binary64} (hx : 0 ≤ x) (hy : 0 ≤ y)
include hx hy

/-- A product is defined unless it is of zero and an infinity. -/
theorem mul_defined_iff :
    (x * y).isNaN = false ↔ ¬ Indeterminate x.magnitude.toNat y.magnitude.toNat := by
  constructor
  · intro hmul h
    rw [isNaN_mul (defined_of_nonneg hx) (defined_of_nonneg hy) h] at hmul
    cases hmul
  · intro h
    rw [mul_eq (defined_of_nonneg hx) (defined_of_nonneg hy) h]
    exact isNaN_ofMagnitude _ (product_le _ _)

/-- The place of a product of numbers that are not negative. -/
theorem place_mul (h : (x * y).isNaN = false) :
    (x * y).place = product x.magnitude.toNat y.magnitude.toNat := by
  have hdet := (mul_defined_iff hx hy).mp h
  rw [mul_eq (defined_of_nonneg hx) (defined_of_nonneg hy) hdet, place,
    sign_ofMagnitude _ (product_le _ _), magnitude_ofMagnitude _ (product_le _ _)]
  unfold Indeterminate at hdet
  rcases sign_of_nonneg hx with hpos | hzero
  · rcases sign_of_nonneg hy with hpos' | hzero'
    · rw [hpos, hpos']
      rfl
    · rw [product_comm, hzero', product_zero (by omega)]
      exact apply_zero _
  · rw [hzero, product_zero (by omega)]
    exact apply_zero _

end Nonneg

theorem magnitude_le {x y : Binary64} (hx : 0 ≤ x) (h : x ≤ y) :
    x.magnitude.toNat ≤ y.magnitude.toNat := by
  have hplace := ((le_iff_place x y).mp h).2.2
  rw [place_of_nonneg hx, place_of_nonneg (le_trans hx h), Nat.cast_le] at hplace
  exact hplace

theorem magnitude_one : (1 : Binary64).magnitude.toNat = 1023 * 2 ^ 52 := by decide

/-- **Fractions of numbers of 64 bits.** -/
theorem fractions : Fractions isNaN where
  mul_le_mul {a b x} ha hab hb hx hdefined := by
    have hb' : 0 ≤ b := le_trans ha hab
    have hle := magnitude_le ha hab
    have hone := magnitude_le hb' hb
    rw [magnitude_one] at hone
    have hdefined' : (b * x).isNaN = false := by
      rw [mul_defined_iff hb' hx, Indeterminate]
      rw [mul_defined_iff ha hx, Indeterminate] at hdefined
      omega
    refine (le_iff_place _ _).mpr ⟨hdefined, hdefined', ?_⟩
    rw [place_mul ha hx hdefined, place_mul hb' hx hdefined', Nat.cast_le]
    exact product_mono hle (by omega) _
  not_mul_lt {a x y} ha _ hx hxy hlt := by
    have hy : 0 ≤ y := le_trans hx hxy
    obtain ⟨hdefined, hdefined', hplace⟩ := (lt_iff_place _ _).mp hlt
    rw [place_mul ha hy hdefined, place_mul ha hx hdefined', Nat.cast_lt, product_comm,
      product_comm a.magnitude.toNat] at hplace
    exact hplace.not_ge (product_mono (magnitude_le hx hxy)
      ((isNaN_eq_false y).mp (defined_of_nonneg hy)) _)
  mul_defined {a x} ha ha' hx := by
    obtain ⟨hzero, hdefined, hplace⟩ := (lt_iff_place 0 a).mp ha
    have hnonneg : 0 ≤ a := (le_iff_place 0 a).mpr ⟨hzero, hdefined, hplace.le⟩
    have hone := magnitude_le hnonneg ha'
    rw [place_zero, place_of_nonneg hnonneg] at hplace
    rw [magnitude_one] at hone
    rw [mul_defined_iff hnonneg hx, Indeterminate]
    omega
  not_mul_pos {a x} ha ha' hx hlt := by
    obtain ⟨hzero, hdefined, hplace⟩ := (lt_iff_place 0 (a * x)).mp hlt
    have hmagnitude : a.magnitude.toNat = 0 := by
      by_contra hne
      refine ha' ((lt_iff_place 0 a).mpr ⟨hzero, defined_of_nonneg ha, ?_⟩)
      rw [place_zero, place_of_nonneg ha]
      omega
    have hdet := (mul_defined_iff ha hx).mp hdefined
    rw [Indeterminate] at hdet
    rw [place_zero, place_mul ha hx hdefined, hmagnitude, product_zero (by omega)] at hplace
    exact absurd hplace (by decide)

end Binary64

end CategorialChart
