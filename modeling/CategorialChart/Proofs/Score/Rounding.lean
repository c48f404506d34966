import CategorialChart.Proofs.Score.Bits

/-! # Rounding to 64 bits

A product is rounded to the nearest number, and to the one with the even fraction if two are equally
near. For whole numbers `p`, in units of the square of the least number above zero, `rounded p` is
the magnitude of the result, as far as it is finite.

* `shift_exact`: the bits that are kept while a fraction is shifted tell how it is to be rounded.
* `rounded_mono`: rounding is monotone, also across exponents.
* `pack_round`: the number that a fraction with an exponent is rounded to. -/

namespace CategorialChart

namespace Binary64

open Float.Model
open Float.Model.UnpackedFloat

/-! ### Rounding a fraction -/

/-- The quotient, rounded to the nearest whole number, or to the even one of two. -/
def nearest (p d : ℕ) : ℕ :=
  if 2 * (p % d) < d then p / d
  else if d < 2 * (p % d) then p / d + 1
  else p / d + p / d % 2

theorem div_le_nearest (p d : ℕ) : p / d ≤ nearest p d := by
  unfold nearest
  split_ifs <;> omega

theorem nearest_le (p d : ℕ) : nearest p d ≤ p / d + 1 := by
  unfold nearest
  split_ifs <;> omega

theorem nearest_mono (d : ℕ) : Monotone fun p => nearest p d := by
  intro p q h
  rcases (Nat.div_le_div_right (c := d) h).eq_or_lt with heq | hlt
  · have hp := Nat.div_add_mod p d
    have hq := Nat.div_add_mod q d
    rw [heq] at hp
    have hmod : p % d ≤ q % d := by omega
    simp only [nearest, heq]
    split_ifs <;> omega
  · exact (nearest_le p d).trans (hlt.trans_le (div_le_nearest q d))

theorem nearest_mul_mul_right (p d : ℕ) {c : ℕ} (hc : 0 < c) :
    nearest (p * c) (d * c) = nearest p d := by
  unfold nearest
  rw [Nat.mul_mod_mul_right, Nat.mul_div_mul_right p d hc, ← Nat.mul_assoc]
  simp only [Nat.mul_lt_mul_right hc]

/-- **Shifting a fraction**: one bit tells whether what is left of the quotient is at least a half,
and one whether it is anything but nothing or a half. -/
theorem shift_exact (m n : ℕ) : ExtendedMantissa.ofMantissaAndAccuracy m .exact >>> n =
    ⟨m / 2 ^ n, decide (2 ^ n ≤ 2 * (m % 2 ^ n)),
      decide (2 * (m % 2 ^ n) ≠ 0 ∧ 2 * (m % 2 ^ n) ≠ 2 ^ n)⟩ := by
  induction n with
  | zero => simp [HShiftRight.hShiftRight, Nat.repeat, ExtendedMantissa.ofMantissaAndAccuracy,
      Nat.mod_one]
  | succ n ih =>
    have hstep : ExtendedMantissa.ofMantissaAndAccuracy m .exact >>> (n + 1) =
        (ExtendedMantissa.ofMantissaAndAccuracy m .exact >>> n).shiftRightOne := rfl
    have hmod : m % 2 ^ (n + 1) = m % 2 ^ n + 2 ^ n * (m / 2 ^ n % 2) := Nat.mod_pow_succ
    have hlt : m % 2 ^ n < 2 ^ n := Nat.mod_lt m (Nat.two_pow_pos n)
    rw [hstep, ih, ExtendedMantissa.shiftRightOne, Nat.div_div_eq_div_mul, hmod, Nat.pow_succ]
    generalize 2 ^ n = d at *
    generalize m % d = r at *
    have hround : (m / d % 2 != 0) = decide (d * 2 ≤ 2 * (r + d * (m / d % 2))) := by
      rcases Nat.mod_two_eq_zero_or_one (m / d) with hbit | hbit <;> rw [hbit]
      · exact (decide_eq_false (by omega)).symm
      · exact (decide_eq_true (by omega)).symm
    have hsticky : (decide (d ≤ 2 * r) || decide (2 * r ≠ 0 ∧ 2 * r ≠ d)) =
        decide (2 * (r + d * (m / d % 2)) ≠ 0 ∧ 2 * (r + d * (m / d % 2)) ≠ d * 2) := by
      rw [← Bool.decide_or, decide_eq_decide]
      rcases Nat.mod_two_eq_zero_or_one (m / d) with hbit | hbit <;> rw [hbit] <;> omega
    rw [hround, hsticky]

theorem roundedMantissa_shift_exact (m n : ℕ) :
    (ExtendedMantissa.ofMantissaAndAccuracy m .exact >>> n).roundedMantissa =
      nearest m (2 ^ n) := by
  rw [shift_exact]
  generalize 2 ^ n = d
  unfold nearest ExtendedMantissa.roundedMantissa
  split_ifs with hlow hhigh
  · rw [decide_eq_false (p := d ≤ 2 * (m % d)) (by omega)]
    rcases decide (2 * (m % d) ≠ 0 ∧ 2 * (m % d) ≠ d) with _ | _ <;> rfl
  · rw [decide_eq_true (p := d ≤ 2 * (m % d)) (by omega), decide_eq_true (by omega)]
    rfl
  · rw [decide_eq_true (p := d ≤ 2 * (m % d)) (by omega), decide_eq_false (by omega)]
    rfl

/-! ### Rounding across exponents -/

theorem log2_mono {p q : ℕ} (h : p ≤ q) : p.log2 ≤ q.log2 := by
  rw [Nat.log2_eq_log_two, Nat.log2_eq_log_two]
  exact Nat.log_mono_right h

theorem log2_mul_two_pow {m : ℕ} (hm : m ≠ 0) (n : ℕ) : (m * 2 ^ n).log2 = m.log2 + n := by
  rw [Nat.log2_eq_iff (Nat.mul_ne_zero hm (Nat.two_pow_pos n).ne'), Nat.add_right_comm,
    Nat.pow_add, Nat.pow_add]
  exact ⟨Nat.mul_le_mul_right _ (Nat.log2_self_le hm),
    Nat.mul_lt_mul_of_pos_right Nat.lt_log2_self (Nat.two_pow_pos n)⟩

/-- How far the exponent of the result is above the least one: by the bits of the product beyond the
53 of a fraction and the 1074 that are lost at the least exponent. -/
def above (p : ℕ) : ℕ := p.log2 - 1126

/-- The fraction of the result, with the bit before it if there is one. -/
def roundedFraction (p : ℕ) : ℕ := nearest p (2 ^ (1074 + above p))

/-- **The magnitude that a product is rounded to.** -/
def rounded (p : ℕ) : ℕ := above p * 2 ^ 52 + roundedFraction p

theorem roundedFraction_le (p : ℕ) : roundedFraction p ≤ 2 ^ 53 := by
  have hlt : p < 2 ^ 53 * 2 ^ (1074 + above p) := by
    rw [← Nat.pow_add]
    exact Nat.lt_log2_self.trans_le (Nat.pow_le_pow_right Nat.two_pos (by unfold above; omega))
  have hdiv : p / 2 ^ (1074 + above p) < 2 ^ 53 :=
    (Nat.div_lt_iff_lt_mul (Nat.two_pow_pos _)).mpr hlt
  exact (nearest_le p _).trans hdiv

theorem le_roundedFraction {p : ℕ} (h : 0 < above p) : 2 ^ 52 ≤ roundedFraction p := by
  have hp : p ≠ 0 := by
    rintro rfl
    exact absurd h (by decide)
  have hle : 2 ^ 52 * 2 ^ (1074 + above p) ≤ p := by
    rw [← Nat.pow_add]
    exact (Nat.pow_le_pow_right Nat.two_pos (by unfold above at *; omega)).trans
      (Nat.log2_self_le hp)
  exact ((Nat.le_div_iff_mul_le (Nat.two_pow_pos _)).mpr hle).trans (div_le_nearest p _)

theorem rounded_zero : rounded 0 = 0 := by
  have habove : above 0 = 0 := rfl
  have hfraction : roundedFraction 0 = 0 := by simp [roundedFraction, nearest]
  rw [rounded, habove, hfraction, Nat.zero_mul]

/-- **Rounding is monotone.** A product with a higher exponent is rounded to at least the greatest
magnitude that one with a lower exponent can be rounded to. -/
theorem rounded_mono : Monotone rounded := by
  intro p q h
  have habove : above p ≤ above q := Nat.sub_le_sub_right (log2_mono h) 1126
  unfold rounded
  rcases habove.eq_or_lt with heq | hlt
  · rw [heq]
    refine Nat.add_le_add_left ?_ _
    unfold roundedFraction
    rw [heq]
    exact nearest_mono _ h
  · have hp := roundedFraction_le p
    have hq := le_roundedFraction (p := q) (by omega)
    omega

/-! ### Rounding a number -/

theorem read_finite {s : Sign} {m j : ℕ} (hm : 0 < m) (hlt : m < 2 ^ 53) (hj : j = 0 ∨ 2 ^ 52 ≤ m)
    (hfinite : j * 2 ^ 52 + m < 2047 * 2 ^ 52) :
    read s (j * 2 ^ 52 + m) = .finite s m (j - 1074) hm := by
  unfold read
  rw [dif_neg (by omega), if_pos hfinite]
  split_ifs with hsmall
  · obtain rfl : j = 0 := by omega
    simp
  · have hfraction : 2 ^ 52 + (j * 2 ^ 52 + m) % 2 ^ 52 = m := by omega
    have hexponent : (((j * 2 ^ 52 + m) / 2 ^ 52 : ℕ) : ℤ) - 1075 = j - 1074 := by omega
    simp only [hfraction, hexponent]

/-- **A number with a fraction and an exponent**, or the infinity if it is too great. -/
theorem pack_finite {s : Sign} {m j : ℕ} (hm : 0 < m) (hlt : m < 2 ^ 53)
    (hj : j = 0 ∨ 2 ^ 52 ≤ m) : UnpackedFloat.pack .binary64 (.finite s m (j - 1074) hm) =
      (ofMagnitude s (min (2047 * 2 ^ 52) (j * 2 ^ 52 + m))).bits.toBitVec := by
  rw [← pack_read s (Nat.min_le_left _ _)]
  rcases Nat.lt_or_ge (j * 2 ^ 52 + m) (2047 * 2 ^ 52) with hfinite | hover
  · rw [Nat.min_eq_right hfinite.le, read_finite hm hlt hj hfinite]
  · rw [Nat.min_eq_left hover]
    have hbiased : ((j : ℤ) - 1074 + Format.binary64.exponentBias +
        Format.binary64.mantissaBitsWithoutImplicit).toNat = j + 1 := by
      change ((j : ℤ) - 1074 + (1023 : ℕ) + (52 : ℕ)).toNat = j + 1
      omega
    rw [UnpackedFloat.pack]
    simp only [hbiased]
    rw [if_pos (by omega)]
    rfl

/-- How far a fraction is shifted: until it has 53 bits or the exponent is the least one. -/
theorem shiftToTargetExponent_exact {m n : ℕ} {e e' : ℤ}
    (hn : (max ((m.log2 : ℤ) + e - 52) (-1074) - e).toNat = n) (he' : e + n = e') :
    shiftToTargetExponent .binary64 m e .exact =
      (ExtendedMantissa.ofMantissaAndAccuracy m .exact >>> n, e') := by
  have hshift : (Format.binary64.targetExponent (totalExponent m e) - e).toNat = n := by
    rw [← hn]
    unfold Format.targetExponent totalExponent
    change (max ((m.log2 : ℤ) + 1 + e - 53) (-1074) - e).toNat = _
    omega
  rw [shiftToTargetExponent, shiftToExponent, hshift, he']

theorem shift_first {m k : ℕ} (hm : 0 < m) (hk : k ≤ 1074 ∨ 2 ^ 52 ≤ m) :
    ∃ em : ExtendedMantissa, em.roundedMantissa = roundedFraction (m * 2 ^ k) ∧
      shiftToTargetExponent .binary64 m (k - 2148) .exact =
        (em, (above (m * 2 ^ k) : ℤ) - 1074) := by
  have hlog := log2_mul_two_pow hm.ne' k
  have hle : k ≤ 1074 + above (m * 2 ^ k) := by
    rcases hk with hk | hk
    · omega
    · have := (Nat.le_log2 hm.ne').mpr hk
      unfold above
      omega
  obtain ⟨n, hn⟩ := Nat.exists_eq_add_of_le hle
  refine ⟨ExtendedMantissa.ofMantissaAndAccuracy m .exact >>> n, ?_, ?_⟩
  · rw [roundedMantissa_shift_exact, roundedFraction, hn, Nat.add_comm k n, Nat.pow_add,
      nearest_mul_mul_right _ _ (Nat.two_pow_pos k)]
  · refine shiftToTargetExponent_exact ?_ (by omega)
    unfold above at hn
    omega

theorem shift_small {m j : ℕ} (hm : m < 2 ^ 53) :
    shiftToTargetExponent .binary64 m (j - 1074) .exact =
      (ExtendedMantissa.mk m false false, (j : ℤ) - 1074) := by
  have hlog : m.log2 ≤ 52 := by
    rcases Nat.eq_zero_or_pos m with rfl | hpos
    · decide
    · exact Nat.le_of_lt_succ ((Nat.log2_lt hpos.ne').mpr hm)
  exact shiftToTargetExponent_exact (n := 0) (by omega) (by omega)

theorem shift_carry (j : ℕ) : shiftToTargetExponent .binary64 (2 ^ 53) (j - 1074) .exact =
    (ExtendedMantissa.mk (2 ^ 52) false false, ((j + 1 : ℕ) : ℤ) - 1074) := by
  have hlog : (2 ^ 53).log2 = 53 := Nat.log2_two_pow
  exact shiftToTargetExponent_exact (n := 1) (by rw [hlog]; omega) (by omega)

/-- **The number that a fraction with an exponent is rounded to.** -/
theorem pack_round (s : Sign) {m k : ℕ} (hm : 0 < m) (hk : k ≤ 1074 ∨ 2 ^ 52 ≤ m) :
    UnpackedFloat.pack .binary64 (roundWithAccuracy .binary64 s m (k - 2148) .exact) =
      (ofMagnitude s (min (2047 * 2 ^ 52) (rounded (m * 2 ^ k)))).bits.toBitVec := by
  obtain ⟨em, hfraction, hfirst⟩ := shift_first hm hk
  have hle := roundedFraction_le (m * 2 ^ k)
  have habove := le_roundedFraction (p := m * 2 ^ k)
  unfold roundWithAccuracy rounded
  rw [hfirst]
  simp only [hfraction]
  generalize above (m * 2 ^ k) = j at *
  generalize roundedFraction (m * 2 ^ k) = r at *
  rcases hle.lt_or_eq with hlt | rfl
  · simp only [shift_small hlt]
    split_ifs with hzero
    · obtain ⟨rfl, rfl⟩ : j = 0 ∧ r = 0 := by omega
      exact pack_read s (Nat.zero_le _)
    · exact pack_finite (Nat.pos_of_ne_zero hzero) hlt (by omega)
  · -- the fraction has one bit more now, so the exponent rises
    have hcarry : (j + 1) * 2 ^ 52 + 2 ^ 52 = j * 2 ^ 52 + 2 ^ 53 := by omega
    simp only [shift_carry]
    rw [dif_neg (by decide), pack_finite (by decide) (by decide) (by omega), hcarry]

end Binary64

end CategorialChart
