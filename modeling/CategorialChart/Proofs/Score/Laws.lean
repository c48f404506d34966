import CategorialChart.Proofs.Score.Order
import CategorialChart.Score.Basic

/-! # The laws of scores

What holds of the scores of a tagger, whatever their type, with a test for those that are undefined.

* `Ranked`: the comparison, the ranking of all scores, which extends it, and the lowest score.
* `MonotoneExp`, `NonnegExp`, `Probabilities`: the probability that a score stands for.
* `Fractions`: the product of a fraction and a quantity. -/

namespace CategorialChart

variable {σ : Type} [LT σ] [LE σ]

/-- **Scores that can be ranked.** The ranking is a linear order of all scores, from the higher to
the lower among those that are defined. -/
structure Ranked [LogScore σ] (undefined : σ → Bool) : Prop extends WeaklyOrdered undefined where
  le_iff : ∀ {x y : σ}, x ≤ y ↔ undefined x = false ∧ undefined y = false ∧ ¬ y < x
  total : ∀ x y : σ, LogScore.ranks x y = true ∨ LogScore.ranks y x = true
  trans_ranks : ∀ {x y z : σ}, LogScore.ranks x y = true → LogScore.ranks y z = true →
    LogScore.ranks x z = true
  antisymm : ∀ {x y : σ}, LogScore.ranks x y = true → LogScore.ranks y x = true → x = y
  not_ranks_of_lt : ∀ {x y : σ}, x < y → ¬ LogScore.ranks x y = true
  lowest_defined : undefined LogScore.lowest = false
  lowest_le : ∀ {x : σ}, undefined x = false → LogScore.lowest ≤ x
  eq_lowest : ∀ {x : σ}, x ≤ LogScore.lowest → x = LogScore.lowest

/-- **A higher score is no less probable**, and an undefined score has no probability. -/
structure MonotoneExp [LogScore σ] (undefined : σ → Bool) : Prop where
  exp_le : ∀ {x y : σ}, x ≤ y → LogScore.exp x ≤ LogScore.exp y
  exp_undefined : ∀ {x : σ}, undefined x = true → undefined (LogScore.exp x) = true

/-- **Probabilities are not negative**, as far as scores are defined. -/
structure NonnegExp [OfNat σ 0] [LogScore σ] (undefined : σ → Bool) : Prop where
  exp_nonneg : ∀ {x : σ}, undefined x = false → 0 ≤ LogScore.exp x

/-- The probabilities of scores: they rise with the scores and are not negative. -/
structure Probabilities [OfNat σ 0] [LogScore σ] (undefined : σ → Bool) : Prop
    extends MonotoneExp undefined, NonnegExp undefined

/-- **Fractions of quantities**, neither being negative. The product rises with either, as far as it
is defined; it is defined unless the fraction is zero, and then it is zero if it is defined. -/
structure Fractions [OfNat σ 0] [OfNat σ 1] [Mul σ] (undefined : σ → Bool) : Prop where
  mul_le_mul : ∀ {a b x : σ}, 0 ≤ a → a ≤ b → b ≤ 1 → 0 ≤ x → undefined (a * x) = false →
    a * x ≤ b * x
  not_mul_lt : ∀ {a x y : σ}, 0 ≤ a → a ≤ 1 → 0 ≤ x → x ≤ y → ¬ a * y < a * x
  mul_defined : ∀ {a x : σ}, 0 < a → a ≤ 1 → 0 ≤ x → undefined (a * x) = false
  not_mul_pos : ∀ {a x : σ}, 0 ≤ a → ¬ 0 < a → 0 ≤ x → ¬ 0 < a * x

namespace Ranked

variable [LogScore σ] {undefined : σ → Bool} (hσ : Ranked undefined)
include hσ

theorem le_refl {x : σ} (h : undefined x = false) : x ≤ x := hσ.le_iff.mpr ⟨h, h, hσ.irrefl x⟩

theorem le_of_lt {x y : σ} (h : x < y) : x ≤ y := by
  obtain ⟨hx, hy⟩ := hσ.defined h
  exact hσ.le_iff.mpr ⟨hx, hy, fun h' => hσ.irrefl x (hσ.trans h h')⟩

theorem le_trans {x y z : σ} (h : x ≤ y) (h' : y ≤ z) : x ≤ z := by
  obtain ⟨hx, hy, hyx⟩ := hσ.le_iff.mp h
  obtain ⟨-, hz, hzy⟩ := hσ.le_iff.mp h'
  exact hσ.le_iff.mpr ⟨hx, hz, hσ.notLt_trans hy hzy hyx⟩

theorem lt_of_le_of_lt {x y z : σ} (h : x ≤ y) (h' : y < z) : x < z := by
  obtain ⟨hx, -, hyx⟩ := hσ.le_iff.mp h
  by_contra hxz
  exact hσ.notLt_trans hx hyx hxz h'

theorem lt_of_lt_of_le {x y z : σ} (h : x < y) (h' : y ≤ z) : x < z := by
  obtain ⟨-, hz, hzy⟩ := hσ.le_iff.mp h'
  by_contra hxz
  exact hσ.notLt_trans hz hxz hzy h

/-- Of two defined scores, the one that is ranked first is not below the other. -/
theorem le_of_ranks {x y : σ} (hx : undefined x = false) (hy : undefined y = false)
    (h : LogScore.ranks x y = true) : y ≤ x :=
  hσ.le_iff.mpr ⟨hy, hx, fun hlt => hσ.not_ranks_of_lt hlt h⟩

end Ranked

omit [LT σ] in
/-- A score is defined if its probability is. -/
theorem MonotoneExp.defined [LogScore σ] {undefined : σ → Bool} (hexp : MonotoneExp undefined)
    {x : σ} (h : undefined (LogScore.exp x) = false) : undefined x = false := by
  rcases hx : undefined x with _ | _
  · rfl
  · rw [hexp.exp_undefined hx] at h
    exact h

end CategorialChart
