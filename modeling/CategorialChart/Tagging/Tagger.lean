import CategorialChart.Tagging.Prune

/-!
# Taggers

A tagger gives each word of a sentence its candidate categories. The scores come from a model
outside; what is fixed here is how its rows are pruned.

* `Scorer`: a scoring model. `Scorer.ofSingle` takes rows of single precision.
* `Tagger`: a model with options. `Tagger.tag` prunes the row of each word.
-/

namespace CategorialChart

/-- A model that scores the categories for each word of a sentence. -/
structure Scorer (σ : Type) where
  /-- The categories that are scored, in the order of the columns. -/
  categories : List Category
  /-- A row of scores for each word. -/
  rows : List String → List (List σ)

/-- The model with rows of single precision, whose scores are widened. -/
def Scorer.ofSingle (categories : List Category) (rows : List String → List (List Binary32)) :
    Scorer Binary64 where
  categories := categories
  rows words := (rows words).map fun row => row.map Binary32.widen

/-- A scoring model with the options for its pruning. -/
structure Tagger (σ : Type) where
  /-- The model. -/
  scorer : Scorer σ
  /-- The options. -/
  options : TaggerOptions σ

/-- **The candidates of each word.** -/
def Tagger.tag {σ : Type} [LT σ] [DecidableLT σ] [Mul σ] [LogScore σ] (t : Tagger σ)
    (words : List String) : List (List (ScoredCategory σ)) :=
  (t.scorer.rows words).map (Tagging.prune t.options t.scorer.categories)

end CategorialChart
