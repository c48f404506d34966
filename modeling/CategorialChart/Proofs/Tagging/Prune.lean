import CategorialChart.Tagging.Tagger
import Mathlib.Data.List.Basic

/-! # What pruning leaves

However the beam falls, the pruning of a row keeps a candidate of every word that has one
(`Tagging.prune_eq_nil`), so a tagger with valid options has a candidate for every word whose row
scores a category (`Tagger.tag_getD_eq_nil`). -/

namespace CategorialChart

variable {σ : Type}

theorem TaggerOptions.maxTags_ne_zero [LE σ] [DecidableLE σ] [OfNat σ 0] [OfNat σ 1] {beta : σ}
    {maxTags : Nat} {options : TaggerOptions σ} (h : validated beta maxTags = .ok options) :
    options.maxTags ≠ 0 := by
  unfold validated at h
  split at h
  · split at h
    · cases h
    · next hmax =>
      cases h
      exact hmax
  · cases h

variable [LT σ] [DecidableLT σ] [LogScore σ]

namespace Tagging

theorem cutBelow_eq_nil {threshold : σ} {candidates : List (ScoredCategory σ)} :
    cutBelow threshold candidates = [] ↔ candidates = [] := by
  rcases candidates with _ | ⟨c, cs⟩
  · simp [cutBelow]
  · simp [cutBelow]

/-- **The pruning of a row** leaves a candidate if there is one. -/
theorem prune_eq_nil [Mul σ] {options : TaggerOptions σ} (h : options.maxTags ≠ 0)
    {categories : List Category} {scores : List σ} : prune options categories scores = [] ↔
      List.zipWith ScoredCategory.mk categories scores = [] := by
  unfold prune ranked
  rw [cutBelow_eq_nil, List.take_eq_nil_iff, or_iff_right h, ← List.length_eq_zero_iff,
    List.length_mergeSort, List.length_eq_zero_iff]

end Tagging

namespace Tagger

/-- The categories with their scores for the word at a position, before they are pruned. -/
def scored (t : Tagger σ) (words : List String) (position : Nat) : List (ScoredCategory σ) :=
  List.zipWith ScoredCategory.mk t.scorer.categories ((t.scorer.rows words).getD position [])

/-- **The candidates of a word** are none only if no category is scored for it. -/
theorem tag_getD_eq_nil [Mul σ] {t : Tagger σ} (h : t.options.maxTags ≠ 0) (words : List String)
    (position : Nat) : (t.tag words).getD position [] = [] ↔ t.scored words position = [] := by
  unfold tag scored
  rw [List.getD_eq_getElem?_getD, List.getElem?_map, List.getD_eq_getElem?_getD]
  rcases (t.scorer.rows words)[position]? with _ | scores
  · simp
  · exact Tagging.prune_eq_nil h

end Tagger

end CategorialChart
