import CategorialChart.Proofs.Score.Laws
import CategorialChart.Tagging.Prune
import Mathlib.Data.List.Basic

/-! # Candidates in the order of their scores

The ranking of a row is a list of the same candidates, the higher scores first, in which candidates
of one score stay in order (`ranked_perm`, `ordered_ranked`, `filter_ranked`). Candidates that are
in the order of their scores are their own ranking (`ranked_of_ordered`).

* `Highest`: the highest of the scores that are defined, or the lowest there is.
* `highest_best`: the best score of a row is the highest. -/

namespace CategorialChart

variable {σ : Type} [LogScore σ]

namespace Tagging

/-- The candidates are in the order of their scores. -/
def Ordered (candidates : List (ScoredCategory σ)) : Prop :=
  candidates.Pairwise fun a b => LogScore.ranks a.score b.score = true

instance (candidates : List (ScoredCategory σ)) : Decidable (Ordered candidates) :=
  inferInstanceAs (Decidable (List.Pairwise _ candidates))

theorem ranked_perm (candidates : List (ScoredCategory σ)) :
    (ranked candidates).Perm candidates :=
  List.mergeSort_perm _ _

/-- What is in order is its own ranking. -/
theorem ranked_of_ordered {candidates : List (ScoredCategory σ)} (h : Ordered candidates) :
    ranked candidates = candidates :=
  List.mergeSort_of_pairwise h

variable [LT σ] [LE σ] {undefined : σ → Bool}

section Ranked
variable (hσ : Ranked undefined) (candidates : List (ScoredCategory σ))
include hσ

/-- Of two candidates, one is ranked before the other or level with it. -/
theorem total_candidates (a b : ScoredCategory σ) :
    (LogScore.ranks a.score b.score || LogScore.ranks b.score a.score) = true := by
  rw [Bool.or_eq_true]
  exact hσ.total a.score b.score

theorem ordered_ranked : Ordered (ranked candidates) :=
  List.pairwise_mergeSort (fun a b c => hσ.trans_ranks (x := a.score) (y := b.score) (z := c.score))
    (total_candidates hσ) candidates

/-- **Candidates of one score stay in order.** -/
theorem filter_ranked [DecidableEq σ] (score : σ) :
    (ranked candidates).filter (fun c => c.score = score) =
      candidates.filter fun c => c.score = score := by
  have hlevel : (candidates.filter fun c => c.score = score).Pairwise
      fun a b => LogScore.ranks a.score b.score = true := by
    refine List.pairwise_filter.mpr (List.pairwise_of_forall fun a b ha hb => ?_)
    rw [of_decide_eq_true ha, of_decide_eq_true hb]
    exact (hσ.total score score).elim id id
  have hsub : (candidates.filter fun c => c.score = score).Sublist (ranked candidates) :=
    List.sublist_mergeSort
      (fun a b c => hσ.trans_ranks (x := a.score) (y := b.score) (z := c.score))
      (total_candidates hσ) hlevel List.filter_sublist
  have hfilter := hsub.filter fun c => c.score = score
  rw [List.filter_filter] at hfilter
  simp only [Bool.and_self] at hfilter
  have hlength := ((ranked_perm candidates).filter fun c => c.score = score).length_eq
  exact (hfilter.eq_of_length hlength.symm).symm

end Ranked

end Tagging

/-! ### The best score -/

variable [LT σ] [LE σ] {undefined : σ → Bool}

/-- **The highest of scores** that are defined: no other of these is above it. If none is defined,
it is the lowest score there is. -/
structure Highest (undefined : σ → Bool) (scores : List σ) (high : σ) : Prop where
  defined : undefined high = false
  attained : (∃ x ∈ scores, undefined x = false) → high ∈ scores
  lowest : (∀ x ∈ scores, undefined x = true) → high = LogScore.lowest
  le : ∀ x ∈ scores, undefined x = false → x ≤ high

/-- Fewer scores have no higher highest one. -/
theorem Highest.mono (hσ : Ranked undefined) {scores fewer : List σ} {high low : σ}
    (h : Highest undefined scores high) (h' : Highest undefined fewer low)
    (hsub : ∀ x ∈ fewer, x ∈ scores) : low ≤ high := by
  by_cases hdefined : ∃ x ∈ fewer, undefined x = false
  · exact h.le low (hsub low (h'.attained hdefined)) h'.defined
  · push Not at hdefined
    rw [h'.lowest fun x hx => Bool.eq_true_of_not_eq_false (hdefined x hx)]
    exact hσ.lowest_le h.defined

namespace Tagging

variable [DecidableLT σ]

omit [LE σ] in
/-- The best score of a row after one more. -/
theorem best_concat (scores : List σ) (x : σ) :
    best (scores ++ [x]) = if best scores < x then x else best scores := by
  rw [best, List.foldl_append]
  rfl

/-- **The best score of a row** is the highest. -/
theorem highest_best (hσ : Ranked undefined) (scores : List σ) :
    Highest undefined scores (best scores) := by
  induction scores using List.reverseRecOn with
  | nil =>
    exact ⟨hσ.lowest_defined, fun ⟨x, hx, _⟩ => absurd hx List.not_mem_nil, fun _ => rfl,
      fun x hx => absurd hx List.not_mem_nil⟩
  | append_singleton scores x ih =>
    rw [best_concat]
    split
    · next hlt =>
      have hx : undefined x = false := (hσ.defined hlt).2
      refine ⟨hx, fun _ => by simp, fun h => ?_, fun y hy hdefined => ?_⟩
      · rw [h x (by simp)] at hx
        cases hx
      · rcases List.mem_append.mp hy with hy | hy
        · exact hσ.le_of_lt (hσ.lt_of_le_of_lt (ih.le y hy hdefined) hlt)
        · rw [List.mem_singleton.mp hy]
          exact hσ.le_refl hx
    · next hnot =>
      have hle : undefined x = false → x ≤ best scores := fun hx =>
        hσ.le_iff.mpr ⟨hx, ih.defined, hnot⟩
      refine ⟨ih.defined, fun ⟨y, hy, hdefined⟩ => ?_, fun h => ?_, fun y hy hdefined => ?_⟩
      · rw [List.mem_append]
        by_cases hscores : ∃ z ∈ scores, undefined z = false
        · exact Or.inl (ih.attained hscores)
        · -- only the last score is defined, and it is not above the lowest one
          push Not at hscores
          have hlow := ih.lowest fun z hz => Bool.eq_true_of_not_eq_false (hscores z hz)
          rcases List.mem_append.mp hy with hy | hy
          · exact absurd hdefined (hscores y hy)
          · rw [List.mem_singleton.mp hy] at hdefined
            have hxle := hle hdefined
            rw [hlow] at hxle ⊢
            exact Or.inr (List.mem_singleton.mpr (hσ.eq_lowest hxle).symm)
      · exact ih.lowest fun z hz => h z (List.mem_append_left _ hz)
      · rcases List.mem_append.mp hy with hy | hy
        · exact ih.le y hy hdefined
        · rw [List.mem_singleton.mp hy] at hdefined ⊢
          exact hle hdefined

end Tagging

end CategorialChart
