/-!
# Scores

Costs, inside scores and tag scores are of any type that has the operations asked for where they are
used: a comparison and a product in the cells, and what `LogScore` adds in the tagger. The library
runs them on `Binary64`.
-/

namespace CategorialChart

/-- Scores in log space, higher being better. -/
class LogScore (σ : Type) where
  /-- The score of an impossible event. No score compares below it. -/
  lowest : σ
  /-- The probability that a score stands for. -/
  exp : σ → σ
  /-- The ranking: whether the first score comes before or level with the second. All scores take
  part, also those that compare with nothing. -/
  ranks : σ → σ → Bool

end CategorialChart
