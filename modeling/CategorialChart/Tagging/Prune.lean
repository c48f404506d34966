import CategorialChart.Category.Basic
import CategorialChart.Options

/-!
# Pruning tag scores

A tagger scores every category for a word. The candidates are ranked, the ranking is cut to the
greatest number of categories, and then at the first candidate, from the third on, whose probability
is below the beam.

* `ScoredCategory`: a category with its score.
* `best`: the highest score of a row. Scores that compare with nothing do not count.
* `prune`: the candidates of a word. The beam belongs to the best score of the whole row.
-/

namespace CategorialChart

/-- A category with its score in log space. -/
structure ScoredCategory (σ : Type) where
  /-- The category. -/
  category : Category
  /-- The score; higher is better. -/
  score : σ
deriving DecidableEq, Repr

namespace Tagging

variable {σ : Type}

/-- The highest of the scores, or the lowest there is if none compares above it. -/
def best [LT σ] [DecidableLT σ] [LogScore σ] (scores : List σ) : σ :=
  scores.foldl (fun high score => if high < score then score else high) LogScore.lowest

/-- The candidates from the best to the worst. Candidates of one rank stay in order. -/
def ranked [LogScore σ] (candidates : List (ScoredCategory σ)) : List (ScoredCategory σ) :=
  candidates.mergeSort fun a b => LogScore.ranks a.score b.score

/-- The candidates up to the first, from the third on, whose probability is below a threshold. -/
def cutBelow [LT σ] [DecidableLT σ] [LogScore σ] (threshold : σ)
    (candidates : List (ScoredCategory σ)) : List (ScoredCategory σ) :=
  candidates.take 2 ++
    (candidates.drop 2).takeWhile fun c => ¬ LogScore.exp c.score < threshold

/-- **The candidates of a word**, from its scores for the categories. Scores without a category and
categories without a score do not count. -/
def prune [LT σ] [DecidableLT σ] [Mul σ] [LogScore σ] (options : TaggerOptions σ)
    (categories : List Category) (scores : List σ) : List (ScoredCategory σ) :=
  let candidates := List.zipWith ScoredCategory.mk categories scores
  let threshold := options.beta * LogScore.exp (best (candidates.map ScoredCategory.score))
  cutBelow threshold ((ranked candidates).take options.maxTags)

end Tagging

end CategorialChart
