import CategorialChart.Proofs.Score.Bits
import CategorialChart.Proofs.Tagging.Ranking

/-! # What the beam leaves of a row

The cut ends the candidates at the first, from the third on, that is below the threshold. So what it
leaves is the longest beginning whose third and later candidates are none of them below
(`prefix_cutBelow_iff`). The candidates come in the order of their scores, and a higher score is no
less probable: so all that the cut leaves out are below the threshold or have no probability at all.

* `prefix_prune`: a pruned row is a beginning of its ranking.
* `prune_kept`: which candidates are kept and which are dropped. -/

namespace CategorialChart

theorem prefix_takeWhile_iff {α : Type} {p : α → Bool} : ∀ {l m : List α},
    l <+: m.takeWhile p ↔ l <+: m ∧ ∀ x ∈ l, p x = true
  | [], m => by simp
  | x :: l, [] => by simp
  | x :: l, y :: m => by
    rw [List.takeWhile_cons, List.cons_prefix_cons, List.forall_mem_cons]
    by_cases hy : p y = true
    · rw [if_pos hy, List.cons_prefix_cons, prefix_takeWhile_iff]
      constructor
      · rintro ⟨rfl, hl, hp⟩
        exact ⟨⟨rfl, hl⟩, hy, hp⟩
      · rintro ⟨⟨rfl, hl⟩, -, hp⟩
        exact ⟨rfl, hl, hp⟩
    · rw [if_neg hy, List.prefix_nil]
      refine iff_of_false (List.cons_ne_nil x l) ?_
      rintro ⟨⟨rfl, -⟩, hx, -⟩
      exact hy hx

variable {σ : Type} [LT σ] [DecidableLT σ] [LogScore σ]

namespace Tagging

variable {threshold : σ} {candidates kept : List (ScoredCategory σ)}

/-- **The cut** leaves the longest beginning whose third and later candidates are not below the
threshold. -/
theorem prefix_cutBelow_iff : kept <+: cutBelow threshold candidates ↔
    kept <+: candidates ∧ ∀ c ∈ kept.drop 2, ¬ LogScore.exp c.score < threshold := by
  have hshort : candidates.length ≤ 2 → kept <+: candidates → kept.drop 2 = [] := fun h hk =>
    List.drop_eq_nil_of_le (hk.length_le.trans h)
  unfold cutBelow
  rcases candidates with _ | ⟨a, _ | ⟨b, rest⟩⟩
  · exact (and_iff_left_of_imp fun hk => by simp [hshort (by simp) hk]).symm
  · exact (and_iff_left_of_imp fun hk => by simp [hshort (by simp) hk]).symm
  · rcases kept with _ | ⟨x, _ | ⟨y, kept⟩⟩
    · simp
    · simp
    · simp [prefix_takeWhile_iff, and_assoc]

theorem prefix_cutBelow (threshold : σ) (candidates : List (ScoredCategory σ)) :
    cutBelow threshold candidates <+: candidates :=
  (prefix_cutBelow_iff.mp List.prefix_rfl).1

theorem not_lt_of_mem_cutBelow {c : ScoredCategory σ}
    (h : c ∈ (cutBelow threshold candidates).drop 2) : ¬ LogScore.exp c.score < threshold :=
  (prefix_cutBelow_iff.mp List.prefix_rfl).2 c h

/-- **What is cut off** begins with a candidate below the threshold, the third or a later one. -/
theorem cut_off (h : (cutBelow threshold candidates).length < candidates.length) :
    2 ≤ (cutBelow threshold candidates).length ∧
      LogScore.exp (candidates[(cutBelow threshold candidates).length]).score < threshold := by
  generalize hkept : cutBelow threshold candidates = kept at h ⊢
  have hlonger : candidates.take kept.length ++ [candidates[kept.length]] <+: candidates := by
    rw [List.take_concat_get' candidates kept.length h]
    exact List.take_prefix _ _
  have hprefix : kept <+: candidates := hkept ▸ prefix_cutBelow threshold candidates
  rw [← List.prefix_iff_eq_take.mp hprefix] at hlonger
  -- one candidate more would be a longer beginning, so this one is below the threshold
  have hnot : ¬ kept ++ [candidates[kept.length]] <+: cutBelow threshold candidates := by
    rw [hkept]
    exact fun hle => by simpa using hle.length_le
  rw [prefix_cutBelow_iff, not_and] at hnot
  have hbelow := hnot hlonger
  push Not at hbelow
  obtain ⟨c, hc, hlt⟩ := hbelow
  rw [List.drop_append, List.mem_append] at hc
  rcases hc with hc | hc
  · rw [← hkept] at hc
    exact absurd hlt (not_lt_of_mem_cutBelow hc)
  · by_cases htwo : 2 ≤ kept.length
    · rw [Nat.sub_eq_zero_of_le htwo, List.drop_zero, List.mem_singleton] at hc
      rw [← hc]
      exact ⟨htwo, hlt⟩
    · rw [List.drop_eq_nil_of_le (by simp; omega)] at hc
      exact absurd hc List.not_mem_nil

/-- The first two candidates are left. -/
theorem min_le_length_cutBelow (threshold : σ) (candidates : List (ScoredCategory σ)) :
    min 2 candidates.length ≤ (cutBelow threshold candidates).length := by
  rw [cutBelow, List.length_append, List.length_take]
  exact Nat.le_add_right _ _

variable [LE σ] {undefined : σ → Bool}

omit [DecidableLT σ] in
/-- **Lower candidates are no more probable**: none that is ranked after one below a threshold is
above this or level with it. -/
theorem not_le_of_lt (hσ : Ranked undefined) (hexp : MonotoneExp undefined) {x y : σ}
    (hlt : LogScore.exp x < threshold) (hranks : LogScore.ranks x y = true) :
    ¬ threshold ≤ LogScore.exp y := by
  intro hle
  have hx : undefined x = false := hexp.defined (hσ.defined hlt).1
  have hy : undefined y = false := hexp.defined (hσ.le_iff.mp hle).2.1
  have hxy := hexp.exp_le (hσ.le_of_ranks hx hy hranks)
  exact hσ.irrefl _ (hσ.lt_of_le_of_lt hle (hσ.lt_of_le_of_lt hxy hlt))

/-- **What is dropped** of candidates in the order of their scores: by the cap, or by the cut. -/
theorem dropped (hσ : Ranked undefined) (hexp : MonotoneExp undefined)
    (hordered : Ordered candidates) {cap i : Nat} (hi : i < candidates.length)
    (hdropped : (cutBelow threshold (candidates.take cap)).length ≤ i) :
    cap ≤ i ∨ 2 ≤ i ∧ ¬ threshold ≤ LogScore.exp candidates[i].score := by
  by_cases hcap : cap ≤ i
  · exact Or.inl hcap
  · right
    have hcut :
        (cutBelow threshold (candidates.take cap)).length < (candidates.take cap).length := by
      rw [List.length_take]
      omega
    obtain ⟨htwo, hlt⟩ := cut_off hcut
    rw [List.getElem_take] at hlt
    refine ⟨htwo.trans hdropped, ?_⟩
    -- the cut came at this candidate or at one that is ranked before it
    rcases hdropped.eq_or_lt with heq | hbefore
    · simp only [heq] at hlt
      exact fun hle => hσ.irrefl _ (hσ.lt_of_le_of_lt hle hlt)
    · exact not_le_of_lt hσ hexp hlt (List.pairwise_iff_getElem.mp hordered _ _ _ hi hbefore)

variable [Mul σ]

omit [LE σ] in
/-- **A pruned row** is a beginning of its ranking. -/
theorem prefix_prune (options : TaggerOptions σ) (categories : List Category) (scores : List σ) :
    prune options categories scores <+: ranked (List.zipWith ScoredCategory.mk categories scores) :=
  (prefix_cutBelow _ _).trans (List.take_prefix _ _)

omit [LE σ] in
/-- A row that is in order is cut as it is. -/
theorem prune_of_ordered (options : TaggerOptions σ) {categories : List Category} {scores : List σ}
    (h : Ordered (List.zipWith ScoredCategory.mk categories scores)) :
    let row := List.zipWith ScoredCategory.mk categories scores
    prune options categories scores = cutBelow
      (options.beta * LogScore.exp (best (row.map ScoredCategory.score)))
      (row.take options.maxTags) := by
  intro row
  rw [prune, ranked_of_ordered h]

/-- **What pruning keeps and what it drops.** The row of a word are its categories with their
scores, as far as there are both. Pruning keeps a beginning of the row in the order of the scores,
in which candidates of one score stay in order: no more candidates than the options allow, and the
first two if they allow them. The threshold belongs to the highest defined score of the whole row.
No candidate that is kept from the third on is below it. A candidate is dropped only if as many as
the options allow are ranked before it, or if it is the third or a later one and its probability
does not reach the threshold. -/
theorem prune_kept [DecidableEq σ] (hσ : Ranked undefined) (hexp : MonotoneExp undefined)
    (options : TaggerOptions σ) (categories : List Category) (scores : List σ) :
    let row := List.zipWith ScoredCategory.mk categories scores
    let kept := prune options categories scores
    let high := best (row.map ScoredCategory.score)
    let threshold := options.beta * LogScore.exp high
    Highest undefined (row.map ScoredCategory.score) high ∧
    kept.length ≤ options.maxTags ∧
    min 2 (min (min categories.length scores.length) options.maxTags) ≤ kept.length ∧
    (∀ c ∈ kept.drop 2, ¬ LogScore.exp c.score < threshold) ∧
    ∃ order : List (ScoredCategory σ), order.Perm row ∧ Ordered order ∧
      (∀ score, order.filter (fun c => c.score = score) = row.filter fun c => c.score = score) ∧
      kept <+: order ∧
      ∀ i (hi : i < order.length), kept.length ≤ i →
        options.maxTags ≤ i ∨ 2 ≤ i ∧ ¬ threshold ≤ LogScore.exp order[i].score := by
  intro row kept high threshold
  have hcap : kept.length ≤ ((ranked row).take options.maxTags).length :=
    (prefix_cutBelow _ _).length_le
  have htwo : min 2 ((ranked row).take options.maxTags).length ≤ kept.length :=
    min_le_length_cutBelow threshold _
  rw [List.length_take, (ranked_perm row).length_eq, List.length_zipWith] at hcap htwo
  refine ⟨highest_best hσ _, hcap.trans (Nat.min_le_left _ _), ?_,
    fun c hc => not_lt_of_mem_cutBelow hc, ranked row, ranked_perm row, ordered_ranked hσ row,
    filter_ranked hσ row, prefix_prune options categories scores,
    fun i hi hdropped => dropped hσ hexp (ordered_ranked hσ row) hi hdropped⟩
  rw [Nat.min_comm _ options.maxTags]
  exact htwo

end Tagging

/-! ### Rows with undefined scores -/

/-- Four categories to score. -/
def Tagging.columns : List Category :=
  [.atom "N" none, .atom "NP" none, .atom "S" none, .atom "PP" none]

open Binary64 in
/-- An undefined score is ranked first, but the threshold belongs to the score zero. So the two that
have this score are kept, and the last one is dropped. -/
theorem Tagging.prune_kept_undefined :
    let scores := [nan, 0, 0, -1000]
    let kept := @prune Binary64 _ _ _ (logScore coarseExp) ⟨1, 4⟩ columns scores
    kept.length = 3 ∧ (∀ c ∈ kept.drop 2, ¬ coarseExp c.score < 1) ∧
    ∃ order : List (ScoredCategory Binary64),
      order.Perm (List.zipWith ScoredCategory.mk columns scores) ∧ kept <+: order ∧
      ∀ i (hi : i < order.length), 3 ≤ i → ¬ 1 ≤ coarseExp order[i].score := by
  intro scores kept
  let _ : LogScore Binary64 := logScore coarseExp
  have hkept : kept.length = 3 := by
    have hordered : Ordered (List.zipWith ScoredCategory.mk columns scores) := by decide
    exact (congrArg List.length (prune_of_ordered ⟨1, 4⟩ hordered)).trans (by decide +kernel)
  have hthreshold : (1 : Binary64) * coarseExp (best scores) = 1 := by decide +kernel
  obtain ⟨-, -, -, hcut, order, hperm, -, -, hprefix, hdropped⟩ := prune_kept
    (Binary64.ranked coarseExp) coarse_probabilities.toMonotoneExp ⟨1, 4⟩ columns scores
  have hlength : order.length = 4 := hperm.length_eq
  refine ⟨hkept, ?_, order, hperm, hprefix, fun i hi hle => ?_⟩
  · rw [← hthreshold]
    exact hcut
  · rw [← hthreshold]
    rcases hdropped i hi (hkept.trans_le hle) with hcap | ⟨-, hnot⟩
    · exact absurd (hcap.trans_lt hi) (by rw [hlength]; decide)
    · exact hnot

end CategorialChart
