import CategorialChart.Proofs.Score.Laws

/-! # Numbers of 64 bits in the order of their bits

A number that is defined is its sign and its magnitude, the whole number that the other bits spell.
The machine reads them as a fraction and an exponent (`read`, `unpack_bits`), and compares these. It
comes to the same to compare the magnitudes with their signs: the place of a number.

* `lt_iff_place`, `le_iff_place`: the comparison by places.
* `ofMagnitude`, `pack_read`: the number with a sign and a magnitude.
* `ranked`: numbers of 64 bits can be ranked, whatever their probabilities.
* `coarse_probabilities`: an example of probabilities. -/

namespace CategorialChart

namespace Binary64

open Float.Model
open Float.Model.UnpackedFloat (Sign unpackSign unpackExponent unpackMantissa unpackSign_def
  unpackExponent_def unpackMantissa_def)

theorem toNat_infinity : infinity.toNat = 2047 * 2 ^ 52 := rfl

theorem toNat_magnitude (x : Binary64) : x.magnitude.toNat = x.bits.toNat % 2 ^ 63 := by
  rw [magnitude, UInt64.toNat_and, ← Nat.and_two_pow_sub_one_eq_mod]
  rfl

theorem isNegative_iff (x : Binary64) : x.isNegative = true ↔ 2 ^ 63 ≤ x.bits.toNat := by
  rw [isNegative, decide_eq_true_iff, UInt64.le_iff_toNat_le]
  rfl

theorem isNaN_eq_true (x : Binary64) : x.isNaN = true ↔ 2047 * 2 ^ 52 < x.magnitude.toNat := by
  rw [isNaN, decide_eq_true_iff, UInt64.lt_iff_toNat_lt, toNat_infinity]

theorem isNaN_eq_false (x : Binary64) : x.isNaN = false ↔ x.magnitude.toNat ≤ 2047 * 2 ^ 52 := by
  rw [← Bool.not_eq_true, isNaN_eq_true, not_lt]

/-- The sign of a number. -/
def sign (x : Binary64) : Sign := if x.isNegative then .negative else .positive

/-- The number that a magnitude up to that of the infinities stands for: zero, a number below the
least exponent, a number with a leading bit before its fraction, or an infinity. -/
def read (s : Sign) (m : Nat) : UnpackedFloat :=
  if h : m = 0 then .zero s
  else if m < 2 ^ 52 then .finite s m (-1074) (Nat.pos_of_ne_zero h)
  else if m < 2047 * 2 ^ 52 then
    .finite s (2 ^ 52 + m % 2 ^ 52) ((m / 2 ^ 52 : Nat) - 1075) (by omega)
  else .infinity s

theorem sign_bits (x : Binary64) :
    Sign.ofBitVec (@unpackSign .binary64 x.bits.toBitVec) = x.sign := by
  have hlt := x.bits.toNat_lt
  have hs : (@unpackSign .binary64 x.bits.toBitVec).toNat = x.bits.toNat / 2 ^ 63 := by
    rw [unpackSign_def, BitVec.extractLsb'_toNat, Nat.shiftRight_eq_div_pow]
    change x.bits.toNat / 2 ^ 63 % 2 ^ 1 = _
    omega
  have hzero : @unpackSign .binary64 x.bits.toBitVec = 0#1 ↔ ¬ 2 ^ 63 ≤ x.bits.toNat := by
    rw [← BitVec.toNat_inj, hs, BitVec.toNat_ofNat]
    omega
  rw [Sign.ofBitVec, sign]
  by_cases hneg : x.isNegative = true
  · rw [if_pos hneg, if_neg (hzero.not.mpr (not_not.mpr ((isNegative_iff x).mp hneg)))]
  · rw [if_neg hneg, if_pos (hzero.mpr (mt (isNegative_iff x).mpr hneg))]

theorem exponent_bits (x : Binary64) :
    (@unpackExponent .binary64 x.bits.toBitVec).toNat = x.magnitude.toNat / 2 ^ 52 := by
  rw [toNat_magnitude, unpackExponent_def, BitVec.extractLsb'_toNat, Nat.shiftRight_eq_div_pow]
  change x.bits.toNat / 2 ^ 52 % 2 ^ 11 = _
  omega

theorem fraction_bits (x : Binary64) :
    (@unpackMantissa .binary64 x.bits.toBitVec).toNat = x.magnitude.toNat % 2 ^ 52 := by
  rw [toNat_magnitude, unpackMantissa_def, BitVec.extractLsb'_toNat, Nat.shiftRight_zero]
  change x.bits.toNat % 2 ^ 52 = _
  omega

theorem unpack_bits {x : Binary64} (hx : x.isNaN = false) :
    UnpackedFloat.unpack .binary64 x.bits.toBitVec = read x.sign x.magnitude.toNat := by
  have hle := (isNaN_eq_false x).mp hx
  have he := exponent_bits x
  have hm := fraction_bits x
  unfold UnpackedFloat.unpack
  extract_lets fraction exponent power sv s
  have hs : s = x.sign := sign_bits x
  change exponent.toNat = _ at he
  change fraction.toNat = _ at hm
  generalize x.magnitude.toNat = m at *
  have hmax : exponent = -1#11 ↔ m / 2 ^ 52 = 2047 := by rw [← he, ← BitVec.toNat_inj]; rfl
  have hleast : exponent = 0#11 ↔ m / 2 ^ 52 = 0 := by rw [← he, ← BitVec.toNat_inj]; rfl
  have hzero : fraction = 0#52 ↔ m % 2 ^ 52 = 0 := by rw [← hm, ← BitVec.toNat_inj]; rfl
  have hlead : (1#1 ++ fraction).toNat = 2 ^ 52 + m % 2 ^ 52 := by
    rw [BitVec.toNat_append, ← Nat.shiftLeft_add_eq_or_of_lt fraction.isLt, hm]
    rfl
  have hpower : power = (m / 2 ^ 52 : Nat) - 1075 := by
    change (exponent.toNat : Int) - 1075 = _
    rw [he]
  unfold read
  by_cases h0 : m = 0
  · rw [if_neg (by rw [hmax]; omega), if_pos (by rw [hleast]; omega),
      dif_pos (by rw [hzero]; omega), dif_pos h0, hs]
  rw [dif_neg h0]
  by_cases h1 : m < 2 ^ 52
  · have hfraction : fraction.toNat = m := by omega
    have hpower : power + 1 = -1074 := by omega
    rw [if_neg (by rw [hmax]; omega), if_pos (by rw [hleast]; omega),
      dif_neg (by rw [hzero]; omega), if_pos h1, hs]
    simp only [hfraction, hpower]
  rw [if_neg h1]
  by_cases h2 : m < 2047 * 2 ^ 52
  · rw [if_neg (by rw [hmax]; omega), if_neg (by rw [hleast]; omega), if_pos h2, hs]
    simp only [hlead, hpower]
  · rw [if_pos (by rw [hmax]; omega), if_pos (by rw [hzero]; omega), if_neg h2, hs]

theorem unpack_toFloat {x : Binary64} (hx : x.isNaN = false) :
    x.toFloat.toModel.unpack = read x.sign x.magnitude.toNat := by
  have h : x.toFloat.toModel.unpack = UnpackedFloat.unpack Format.binary64
      ((UnpackedFloat.unpack Format.binary64 x.bits.toBitVec).pack Format.binary64) := rfl
  rw [isNaN_eq] at hx
  rw [h, UnpackedFloat.pack_unpack, hx]
  rw [← isNaN_eq] at hx
  exact unpack_bits hx

/-! ### Numbers from their magnitudes -/

/-- The number with a sign and a magnitude. -/
def ofMagnitude (s : Sign) (m : ℕ) : Binary64 :=
  match s with
  | .negative => ⟨.ofNat (2 ^ 63 + m)⟩
  | .positive => ⟨.ofNat m⟩

section ofMagnitude
variable (s : Sign) {m : ℕ} (hm : m ≤ 2047 * 2 ^ 52)
include hm

theorem magnitude_ofMagnitude : (ofMagnitude s m).magnitude.toNat = m := by
  rw [toNat_magnitude]
  rcases s with _ | _
  · change (2 ^ 63 + m) % 2 ^ 64 % 2 ^ 63 = m
    omega
  · change m % 2 ^ 64 % 2 ^ 63 = m
    omega

theorem sign_ofMagnitude : (ofMagnitude s m).sign = s := by
  rcases s with _ | _
  · refine if_pos ((isNegative_iff _).mpr ?_)
    change 2 ^ 63 ≤ (2 ^ 63 + m) % 2 ^ 64
    omega
  · refine if_neg (mt (isNegative_iff _).mp ?_)
    change ¬ 2 ^ 63 ≤ m % 2 ^ 64
    omega

theorem isNaN_ofMagnitude : (ofMagnitude s m).isNaN = false := by
  rw [isNaN_eq_false, magnitude_ofMagnitude s hm]
  exact hm

theorem pack_read :
    UnpackedFloat.pack .binary64 (read s m) = (ofMagnitude s m).bits.toBitVec := by
  have hdefined := isNaN_ofMagnitude s hm
  have hread := unpack_bits hdefined
  rw [sign_ofMagnitude s hm, magnitude_ofMagnitude s hm] at hread
  rw [isNaN_eq] at hdefined
  rw [← hread, UnpackedFloat.pack_unpack, hdefined]
  rfl

end ofMagnitude

/-! ### Comparison -/

/-- **The place of a number** among those that are defined: its magnitude with its sign. Both zeros
have the same place. -/
def place (x : Binary64) : Int := x.sign.apply x.magnitude.toNat

theorem height_positive {m m' : Nat} (h : m < m') (h' : m' ≤ 2047 * 2 ^ 52) :
    height (read .positive m) < height (read .positive m') := by
  unfold read
  split_ifs <;> simp [height, Prod.Lex.toLex_lt_toLex] <;> omega

theorem height_negative {m m' : Nat} (h : m < m') (h' : m' ≤ 2047 * 2 ^ 52) :
    height (read .negative m') < height (read .negative m) := by
  unfold read
  split_ifs <;> simp [height, Prod.Lex.toLex_lt_toLex] <;> omega

/-- Of a number that is not negative and one that is not positive, the first is not below. -/
theorem height_negative_le_positive {m m' : Nat} (h : m ≤ 2047 * 2 ^ 52)
    (h' : m' ≤ 2047 * 2 ^ 52) (hne : m ≠ 0 ∨ m' ≠ 0) :
    height (read .negative m) < height (read .positive m') := by
  have hzero : height (read .negative 0) = height (read .positive 0) := rfl
  rcases Nat.eq_zero_or_pos m with rfl | hm
  · rw [hzero]
    exact height_positive (by omega) h'
  · have hneg := height_negative hm h
    rw [hzero] at hneg
    rcases Nat.eq_zero_or_pos m' with rfl | hm'
    · exact hneg
    · exact hneg.trans (height_positive hm' h')

/-- The order of the heights is that of the magnitudes with their signs. -/
theorem height_lt {s s' : Sign} {m m' : Nat} (h : m ≤ 2047 * 2 ^ 52) (h' : m' ≤ 2047 * 2 ^ 52)
    (hlt : s.apply m < s'.apply m') : height (read s m) < height (read s' m') := by
  rcases s with _ | _ <;> rcases s' with _ | _ <;> simp only [Sign.apply] at hlt
  · exact height_negative (by omega) h
  · exact height_negative_le_positive h h' (by omega)
  · omega
  · exact height_positive (by omega) h'

theorem height_congr {s s' : Sign} {m m' : Nat} (heq : s.apply m = s'.apply m') :
    height (read s m) = height (read s' m') := by
  have hm : m = m' := by
    rcases s with _ | _ <;> rcases s' with _ | _ <;> simp only [Sign.apply] at heq <;> omega
  subst hm
  rcases s with _ | _ <;> rcases s' with _ | _
  · rfl
  · obtain rfl : m = 0 := by simp only [Sign.apply] at heq; omega
    rfl
  · obtain rfl : m = 0 := by simp only [Sign.apply] at heq; omega
    rfl
  · rfl

theorem height_lt_iff {x y : Binary64} (hx : x.isNaN = false) (hy : y.isNaN = false) :
    height x.toFloat.toModel.unpack < height y.toFloat.toModel.unpack ↔ x.place < y.place := by
  have hmx := (isNaN_eq_false x).mp hx
  have hmy := (isNaN_eq_false y).mp hy
  rw [unpack_toFloat hx, unpack_toFloat hy]
  rcases lt_trichotomy x.place y.place with h | h | h
  · exact iff_of_true (height_lt hmx hmy h) h
  · exact iff_of_false (height_congr h).not_lt h.not_lt
  · exact iff_of_false (height_lt hmy hmx h).not_gt h.not_gt

/-- **Comparison of numbers** is that of their places, if they are defined. -/
theorem lt_iff_place (x y : Binary64) :
    x < y ↔ x.isNaN = false ∧ y.isNaN = false ∧ x.place < y.place := by
  rw [lt_iff]
  constructor
  · rintro ⟨hx, hy, h⟩
    exact ⟨hx, hy, (height_lt_iff hx hy).mp h⟩
  · rintro ⟨hx, hy, h⟩
    exact ⟨hx, hy, (height_lt_iff hx hy).mpr h⟩

theorem unpacked_le_iff (a b : UnpackedFloat) :
    a.le b = true ↔ a ≠ .notANumber ∧ b ≠ .notANumber ∧ ¬ height b < height a := by
  rw [UnpackedFloat.le]
  rcases a with (_ | _) | _ | (_ | _) | ⟨_ | _, m, e, _⟩ <;>
    rcases b with (_ | _) | _ | (_ | _) | ⟨_ | _, m', e', _⟩ <;>
    simp [UnpackedFloat.compare, height, Prod.Lex.toLex_lt_toLex, Ordering.isLE_iff_ne_gt,
      Ordering.isGE_iff_ne_lt, Ordering.then_eq_lt, Ordering.then_eq_gt, compare_lt_iff_lt,
      compare_gt_iff_gt]
  -- what is left compares the signs of the two infinities, and two numbers of one sign
  · rfl
  · omega
  · omega

theorem le_iff_place (x y : Binary64) :
    x ≤ y ↔ x.isNaN = false ∧ y.isNaN = false ∧ x.place ≤ y.place := by
  have hle : x ≤ y ↔ x.toFloat.toModel.unpack.le y.toFloat.toModel.unpack = true := by
    have h : x ≤ y ↔ decide (x.toFloat.toModel ≤ y.toFloat.toModel) = true := Iff.rfl
    rw [h, decide_eq_true_iff]
    exact Iff.rfl
  rw [hle, unpacked_le_iff, ne_eq, ne_eq, ← isNaN_iff, ← isNaN_iff, Bool.not_eq_true,
    Bool.not_eq_true]
  constructor
  · rintro ⟨hx, hy, h⟩
    exact ⟨hx, hy, not_lt.mp ((height_lt_iff hy hx).not.mp h)⟩
  · rintro ⟨hx, hy, h⟩
    exact ⟨hx, hy, (height_lt_iff hy hx).not.mpr (not_lt.mpr h)⟩

theorem le_trans {x y z : Binary64} (h : x ≤ y) (h' : y ≤ z) : x ≤ z := by
  obtain ⟨hx, -, hxy⟩ := (le_iff_place x y).mp h
  obtain ⟨-, hz, hyz⟩ := (le_iff_place y z).mp h'
  exact (le_iff_place x z).mpr ⟨hx, hz, hxy.trans hyz⟩

theorem place_zero : (0 : Binary64).place = 0 := by decide

/-! ### Ranking -/

theorem order_lt_of_place_lt {x y : Binary64} (h : x.place < y.place) : x.order < y.order := by
  unfold place sign at h
  unfold order
  split_ifs at h ⊢ <;> simp only [Sign.apply] at h <;> omega

theorem order_of_place_neg {x : Binary64} (h : x.place < 0) : x.order = x.place - 1 := by
  unfold place sign at h ⊢
  unfold order
  split_ifs at h ⊢ <;> simp only [Sign.apply] at h ⊢ <;> omega

theorem neg_infinity_le_place {x : Binary64} (hx : x.isNaN = false) :
    -(2047 * 2 ^ 52) ≤ x.place := by
  have := (isNaN_eq_false x).mp hx
  unfold place sign
  split_ifs <;> simp only [Sign.apply] <;> omega

/-- Numbers at one place in the ranking are the same. -/
theorem order_injective : Function.Injective order := by
  intro x y h
  have hx := x.toNat_magnitude
  have hy := y.toNat_magnitude
  have hx' := x.isNegative_iff
  have hy' := y.isNegative_iff
  have hltx := x.bits.toNat_lt
  have hlty := y.bits.toNat_lt
  have hbits : x.bits.toNat = y.bits.toNat := by
    unfold order at h
    split_ifs at h with hnx hny hny
    · have := hx'.mp hnx
      have := hy'.mp hny
      omega
    · omega
    · omega
    · have := mt hx'.mpr hnx
      have := mt hy'.mpr hny
      omega
  rcases x with ⟨x⟩
  rcases y with ⟨y⟩
  exact congrArg Binary64.mk (UInt64.toNat_inj.mp hbits)

/-- Numbers as log scores, with any function for the probabilities. -/
abbrev logScore (exp : Binary64 → Binary64) : LogScore Binary64 :=
  { (inferInstance : LogScore Binary64) with exp := exp }

/-- Scores are run with the exponential function of the machine. -/
example : logScore (fun x => ofFloat x.toFloat.exp) = (inferInstance : LogScore Binary64) := rfl

/-- **Numbers of 64 bits can be ranked.** -/
theorem ranked (exp : Binary64 → Binary64) : @Ranked Binary64 _ _ (logScore exp) isNaN := by
  let lowest : Binary64 := ⟨0xFFF0000000000000⟩
  have hranks : ∀ x y : Binary64, (logScore exp).ranks x y = true ↔ y.order ≤ x.order := fun x y =>
    decide_eq_true_iff
  have hlowest : lowest.place = -(2047 * 2 ^ 52) := by decide
  have hdefined : lowest.isNaN = false := by decide
  let _ : LogScore Binary64 := logScore exp
  exact {
    weaklyOrdered with
    le_iff := fun {x y} => by
      rw [le_iff_place, lt_iff_place]
      constructor
      · rintro ⟨hx, hy, h⟩
        exact ⟨hx, hy, fun ⟨_, _, h'⟩ => by omega⟩
      · rintro ⟨hx, hy, h⟩
        exact ⟨hx, hy, not_lt.mp fun h' => h ⟨hy, hx, h'⟩⟩
    total := fun x y => by
      rw [hranks, hranks]
      omega
    trans_ranks := fun {x y z} h h' => by
      rw [hranks] at h h' ⊢
      omega
    antisymm := fun {x y} h h' => by
      rw [hranks] at h h'
      exact order_injective (by omega)
    not_ranks_of_lt := fun {x y} h => by
      have hlt := order_lt_of_place_lt ((lt_iff_place x y).mp h).2.2
      rw [hranks]
      omega
    lowest_defined := hdefined
    lowest_le := fun {x} hx => by
      have hle := neg_infinity_le_place hx
      exact (le_iff_place lowest x).mpr ⟨hdefined, hx, hlowest.trans_le hle⟩
    eq_lowest := fun {x} h => by
      obtain ⟨hx, -, hle⟩ := (le_iff_place x lowest).mp h
      have hplace : x.place = lowest.place :=
        hle.antisymm (hlowest.trans_le (neg_infinity_le_place hx))
      have hneg : lowest.place < 0 := by rw [hlowest]; decide
      have horder : x.order = lowest.order := by
        rw [order_of_place_neg (hplace ▸ hneg), order_of_place_neg hneg, hplace]
      exact order_injective horder }

/-! ### Probabilities -/

/-- An undefined number without a sign. It is ranked before all that are defined. -/
def nan : Binary64 := ⟨0x7FF8000000000000⟩

/-- **An exponential function of few values.** It is right for zero, for the infinities, for what is
undefined, and for the numbers whose probability is rounded to zero or to infinity. -/
def coarseExp (x : Binary64) : Binary64 :=
  if x.isNaN then nan
  else if x < 0 then 0
  else if 0 < x then ⟨infinity⟩
  else 1

theorem coarseExp_of_defined {x : Binary64} (hx : x.isNaN = false) :
    coarseExp x = if x.place < 0 then 0 else if 0 < x.place then ⟨infinity⟩ else 1 := by
  have hzero : (0 : Binary64).isNaN = false := by decide
  unfold coarseExp
  simp only [hx, lt_iff_place, hzero, place_zero, true_and, Bool.false_eq_true, if_false]

theorem coarse_probabilities : @Probabilities Binary64 _ _ (logScore coarseExp) isNaN := by
  let _ : LogScore Binary64 := logScore coarseExp
  exact {
    exp_le := fun {x y} h => by
      obtain ⟨hx, hy, hle⟩ := (le_iff_place x y).mp h
      change coarseExp x ≤ coarseExp y
      rw [coarseExp_of_defined hx, coarseExp_of_defined hy]
      split_ifs <;> first | omega | decide
    exp_undefined := fun {x} h => by
      change (coarseExp x).isNaN = true
      rw [coarseExp, if_pos h]
      decide
    exp_nonneg := fun {x} h => by
      change 0 ≤ coarseExp x
      rw [coarseExp_of_defined h]
      split_ifs <;> decide }

end Binary64

end CategorialChart
