import CategorialChart.Proofs.Score.Product
import CategorialChart.Proofs.Tagging.Beam
import CategorialChart.Proofs.Tagging.Prune

/-! # Pruning with narrower options, and pruning twice

A cut with fewer candidates below the threshold, or of a shorter list, leaves a beginning of what
the other leaves (`cutBelow_prefix_cutBelow`).

* `prune_nested`: a narrower beam and a lower cap leave a beginning of the pruned row. The
  thresholds belong to the same best score, and the higher one to the higher fraction.
* `prune_idempotent`: a pruned row stays as it is when it is pruned again. Its best score may be
  lower than that of the row, if the cap left out all that were as high. But then the threshold is
  no higher, or it is undefined, or it is zero. -/

namespace CategorialChart

variable {σ : Type} [LT σ] [LE σ]

omit [LT σ] in
theorem TaggerOptions.of_validated [DecidableLE σ] [OfNat σ 0] [OfNat σ 1] {beta : σ}
    {maxTags : Nat} {options : TaggerOptions σ} (h : validated beta maxTags = .ok options) :
    options = ⟨beta, maxTags⟩ ∧ 0 ≤ beta ∧ beta ≤ 1 := by
  unfold validated at h
  split at h
  · next hbeta =>
    split at h
    · cases h
    · cases h
      exact ⟨rfl, hbeta⟩
  · cases h

variable [DecidableLT σ] [LogScore σ]

namespace Tagging

omit [LE σ] in
/-- **A narrower cut** of a shorter list leaves a beginning of what the other leaves. -/
theorem cutBelow_prefix_cutBelow {narrow wide : σ} {short long : List (ScoredCategory σ)}
    (hlists : short <+: long)
    (hbelow : ∀ c : ScoredCategory σ, LogScore.exp c.score < wide → LogScore.exp c.score < narrow) :
    cutBelow narrow short <+: cutBelow wide long :=
  prefix_cutBelow_iff.mpr ⟨(prefix_cutBelow narrow short).trans hlists,
    fun c hc hlt => not_lt_of_mem_cutBelow hc (hbelow c hlt)⟩

omit [LE σ] in
/-- Candidates of which none from the third on is below the threshold are all left. -/
theorem cutBelow_eq_self {threshold : σ} {candidates : List (ScoredCategory σ)}
    (h : ∀ c ∈ candidates.drop 2, ¬ LogScore.exp c.score < threshold) :
    cutBelow threshold candidates = candidates := by
  have hall : candidates <+: cutBelow threshold candidates :=
    prefix_cutBelow_iff.mpr ⟨List.prefix_rfl, h⟩
  exact (hall.eq_of_length_le (prefix_cutBelow threshold candidates).length_le).symm

variable [OfNat σ 0] [OfNat σ 1] [Mul σ] {undefined : σ → Bool}

/-- **Pruning is nested in its options.** A beam that is no wider and a cap that is no higher leave
a beginning of what the others leave. -/
theorem prune_nested [DecidableLE σ] (hσ : Ranked undefined) (hexp : NonnegExp undefined)
    (hmul : Fractions undefined) {wide narrow : σ} {high low : Nat}
    {options options' : TaggerOptions σ}
    (hoptions : TaggerOptions.validated wide high = .ok options)
    (hoptions' : TaggerOptions.validated narrow low = .ok options')
    (hbeta : wide ≤ narrow) (hcap : low ≤ high) (categories : List Category) (scores : List σ) :
    prune options' categories scores <+: prune options categories scores := by
  obtain ⟨rfl, hwide, -⟩ := TaggerOptions.of_validated hoptions
  obtain ⟨rfl, -, hnarrow⟩ := TaggerOptions.of_validated hoptions'
  have hbest := highest_best hσ ((List.zipWith ScoredCategory.mk categories scores).map
    ScoredCategory.score)
  refine cutBelow_prefix_cutBelow (List.take_prefix_take_left hcap) fun c hlt => ?_
  have hproduct := (hσ.defined hlt).2
  exact hσ.lt_of_lt_of_le hlt
    (hmul.mul_le_mul hwide hbeta hnarrow (hexp.exp_nonneg hbest.defined) hproduct)

open Binary64 in
/-- The threshold of a fraction zero is undefined here, so nothing is cut off. The threshold of the
whole is infinite, and two candidates are left. -/
theorem prune_nested_infinite :
    let scores := [1000, 0, 0, -1000]
    let pruned := fun options =>
      @prune Binary64 _ _ _ (logScore coarseExp) options columns scores
    TaggerOptions.validated (0 : Binary64) 4 = .ok ⟨0, 4⟩ ∧
    TaggerOptions.validated (1 : Binary64) 3 = .ok ⟨1, 3⟩ ∧
    (0 : Binary64) ≤ 1 ∧
    (pruned ⟨0, 4⟩).length = 4 ∧ (pruned ⟨1, 3⟩).length = 2 ∧ pruned ⟨1, 3⟩ <+: pruned ⟨0, 4⟩ := by
  intro scores pruned
  let _ : LogScore Binary64 := logScore coarseExp
  have hordered : Ordered (List.zipWith ScoredCategory.mk columns scores) := by decide
  have hwide : TaggerOptions.validated (0 : Binary64) 4 = .ok ⟨0, 4⟩ := by decide
  have hnarrow : TaggerOptions.validated (1 : Binary64) 3 = .ok ⟨1, 3⟩ := by decide
  refine ⟨hwide, hnarrow, by decide, ?_, ?_, ?_⟩
  · exact (congrArg List.length (prune_of_ordered ⟨0, 4⟩ hordered)).trans (by decide +kernel)
  · exact (congrArg List.length (prune_of_ordered ⟨1, 3⟩ hordered)).trans (by decide +kernel)
  · exact prune_nested (Binary64.ranked coarseExp) coarse_probabilities.toNonnegExp fractions hwide
      hnarrow (by decide) (by decide) columns scores

omit [DecidableLT σ] in
/-- A threshold of a fraction of a lower probability cuts off nothing that the other does not. -/
theorem not_lt_mul (hσ : Ranked undefined) (hexp : Probabilities undefined)
    (hmul : Fractions undefined) {beta x y score : σ} (hbeta : 0 ≤ beta) (hbeta' : beta ≤ 1)
    (hx : 0 ≤ x) (hxy : x ≤ y) (h : ¬ LogScore.exp score < beta * y) :
    ¬ LogScore.exp score < beta * x := by
  intro hlt
  obtain ⟨hscore, hdefined⟩ := hσ.defined hlt
  rcases hy : undefined (beta * y) with _ | _
  · have hle : beta * x ≤ beta * y :=
      hσ.le_iff.mpr ⟨hdefined, hy, hmul.not_mul_lt hbeta hbeta' hx hxy⟩
    exact h (hσ.lt_of_lt_of_le hlt hle)
  · -- the product is undefined for the fraction zero only, and zero is above no probability
    have hzero : ¬ 0 < beta := by
      intro hpos
      rw [hmul.mul_defined hpos hbeta' (hσ.le_trans hx hxy)] at hy
      cases hy
    have hnonneg := hexp.exp_nonneg (hexp.toMonotoneExp.defined hscore)
    exact hmul.not_mul_pos hbeta hzero hx (hσ.lt_of_le_of_lt hnonneg hlt)

omit [LT σ] [LE σ] [DecidableLT σ] [LogScore σ] [OfNat σ 0] [OfNat σ 1] [Mul σ] in
theorem zipWith_mk_map (candidates : List (ScoredCategory σ)) :
    List.zipWith ScoredCategory.mk (candidates.map ScoredCategory.category)
      (candidates.map ScoredCategory.score) = candidates := by
  rw [List.zipWith_map, List.zipWith_self]
  exact List.map_id candidates

omit [LE σ] [OfNat σ 0] [OfNat σ 1] in
/-- What is kept is of the row. -/
theorem mem_row_of_mem_prune {options : TaggerOptions σ} {categories : List Category}
    {scores : List σ} {c : ScoredCategory σ} (h : c ∈ prune options categories scores) :
    c ∈ List.zipWith ScoredCategory.mk categories scores :=
  (ranked_perm _).mem_iff.mp ((prefix_prune options categories scores).mem h)

/-- **Pruning twice** is to prune once. -/
theorem prune_prune [DecidableLE σ] (hσ : Ranked undefined) (hexp : Probabilities undefined)
    (hmul : Fractions undefined) {beta : σ} {maxTags : Nat} {options : TaggerOptions σ}
    (hoptions : TaggerOptions.validated beta maxTags = .ok options) (categories : List Category)
    (scores : List σ) :
    let kept := prune options categories scores
    prune options (kept.map ScoredCategory.category) (kept.map ScoredCategory.score) = kept := by
  intro kept
  obtain ⟨rfl, hbeta, hbeta'⟩ := TaggerOptions.of_validated hoptions
  have hordered : Ordered kept :=
    (ordered_ranked hσ _).sublist (prefix_prune _ categories scores).sublist
  have hcap : kept.length ≤ maxTags :=
    (prefix_cutBelow _ _).length_le.trans (List.length_take_le _ _)
  have hbest := highest_best hσ ((List.zipWith ScoredCategory.mk categories scores).map
    ScoredCategory.score)
  have hbest' := highest_best hσ (kept.map ScoredCategory.score)
  have hle := hbest.mono hσ hbest' fun x hx => by
    obtain ⟨c, hc, rfl⟩ := List.mem_map.mp hx
    exact List.mem_map_of_mem (mem_row_of_mem_prune hc)
  unfold prune
  dsimp only
  rw [zipWith_mk_map, ranked_of_ordered hordered, List.take_of_length_le hcap]
  exact cutBelow_eq_self fun c hc => not_lt_mul hσ hexp hmul hbeta hbeta'
    (hexp.exp_nonneg hbest'.defined) (hexp.exp_le hle) (not_lt_of_mem_cutBelow hc)

omit [LT σ] [LE σ] [DecidableLT σ] [LogScore σ] [OfNat σ 0] [OfNat σ 1] [Mul σ] in
theorem score_mem_of_mem_row {categories : List Category} {scores : List σ} {c : ScoredCategory σ}
    (h : c ∈ List.zipWith ScoredCategory.mk categories scores) : c.score ∈ scores := by
  rw [← List.map_uncurry_zip_eq_zipWith] at h
  obtain ⟨⟨category, score⟩, hzip, rfl⟩ := List.mem_map.mp h
  exact (List.of_mem_zip hzip).2

/-- **Pruning is idempotent**, also through a narrower format of scores, from which a row is
widened. The scores that are kept are widened from scores of the row, so they can be narrowed
without loss. Whichever narrow scores are widened to them, pruning these with the categories that
were kept leaves what was kept. -/
theorem prune_idempotent [DecidableLE σ] (hσ : Ranked undefined) (hexp : Probabilities undefined)
    (hmul : Fractions undefined) {beta : σ} {maxTags : Nat} {options : TaggerOptions σ}
    (hoptions : TaggerOptions.validated beta maxTags = .ok options) {τ : Type} (widen : τ → σ)
    (categories : List Category) (row : List τ) :
    let kept := prune options categories (row.map widen)
    (∃ narrow : List τ, (∀ x ∈ narrow, x ∈ row) ∧
      narrow.map widen = kept.map ScoredCategory.score) ∧
    ∀ narrow : List τ, narrow.map widen = kept.map ScoredCategory.score →
      prune options (kept.map ScoredCategory.category) (narrow.map widen) = kept := by
  intro kept
  have hscores : ∀ c ∈ kept, ∃ x ∈ row, widen x = c.score := fun c hc =>
    List.mem_map.mp (score_mem_of_mem_row (mem_row_of_mem_prune hc))
  refine ⟨⟨kept.pmap (fun _ h => Exists.choose h) hscores, fun x hx => ?_, ?_⟩,
    fun narrow hnarrow => ?_⟩
  · obtain ⟨c, hc, rfl⟩ := List.mem_pmap.mp hx
    exact (hscores c hc).choose_spec.1
  · rw [List.map_pmap, ← List.pmap_eq_map (p := fun c => ∃ x ∈ row, widen x = c.score) hscores]
    exact List.pmap_congr_left kept fun c _ h _ => h.choose_spec.2
  · rw [hnarrow]
    exact prune_prune hσ hexp hmul hoptions categories _

open Binary64 in
/-- The best score is left out by the cap, since three undefined scores are ranked before it. So the
threshold is one at first, and zero when the row is pruned again. -/
theorem prune_idempotent_undefined :
    let scores := [nan, nan, nan, 0]
    let pruned := @prune Binary64 _ _ _ (logScore coarseExp) ⟨1, 3⟩
    let kept := pruned columns scores
    TaggerOptions.validated (1 : Binary64) 3 = .ok ⟨1, 3⟩ ∧
    kept = List.zipWith ScoredCategory.mk columns [nan, nan, nan] ∧
    1 * coarseExp (@best Binary64 _ _ (logScore coarseExp) scores) = 1 ∧
    1 * coarseExp (@best Binary64 _ _ (logScore coarseExp) (kept.map ScoredCategory.score)) = 0 ∧
    pruned (kept.map ScoredCategory.category) (kept.map ScoredCategory.score) = kept := by
  intro scores pruned kept
  let _ : LogScore Binary64 := logScore coarseExp
  have hordered : Ordered (List.zipWith ScoredCategory.mk columns scores) := by decide
  have hkept : kept = List.zipWith ScoredCategory.mk columns [nan, nan, nan] :=
    (prune_of_ordered ⟨1, 3⟩ hordered).trans (by decide +kernel)
  have hoptions : TaggerOptions.validated (1 : Binary64) 3 = .ok ⟨1, 3⟩ := by decide
  obtain ⟨-, hagain⟩ := prune_idempotent (Binary64.ranked coarseExp) coarse_probabilities fractions
    hoptions id columns scores
  have hpruned := hagain (kept.map ScoredCategory.score) (by rw [List.map_id, List.map_id])
  refine ⟨hoptions, hkept, by decide +kernel, ?_, ?_⟩
  · rw [hkept]
    decide +kernel
  · rw [List.map_id, List.map_id] at hpruned
    exact hpruned

end Tagging

end CategorialChart
