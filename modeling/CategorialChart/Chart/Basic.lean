import CategorialChart.Chart.Span
import CategorialChart.Tagging.Prune
import CategorialChart.Workspace.Basic

/-!
# Charts

The chart of a sentence has a cell for each span. Its cells follow the policy of a workspace and
share the hasher of the workspace, which every operation that offers an item uses and gives back.

* `Chart.new`: the chart of a sentence, with empty cells.
* `Chart.cell`, `Chart.offer`, `Chart.add`: the cell of a span, and offers to it.
* `Chart.seed`: offers the items that are made from a tagger's candidates to the cells of single
  words.
* `Chart.spans`, `Chart.stats`: the spans that hold items, and the counters of all cells together.
-/

namespace CategorialChart

/-- The cells of a sentence. -/
structure Chart (κ σ : Type) where
  /-- The number of words. -/
  length : Nat
  /-- The cells, each at the place of its span. -/
  cells : Vector (Cell κ σ) (spanCount length)

namespace Chart

variable {κ σ : Type}

/-- The chart of the next sentence of a workspace. The workspace forgets the sentence before even if
the new one is too long. -/
def new (w : Workspace σ) (length : Nat) : Except ChartError (Chart κ σ) × Workspace σ :=
  match w.startSentence length with
  | (.error e, w) => (.error e, w)
  | (.ok (), w) => (.ok ⟨length, .replicate _ w.cell⟩, w)

/-- Whether the sentence has no words. -/
def isEmpty (c : Chart κ σ) : Bool := c.length = 0

/-- The cell of a span. -/
def cell (c : Chart κ σ) (span : Span) : Except ChartError (Cell κ σ) :=
  if h : span.Within c.length then
    have := Span.index_lt h
    .ok c.cells[span.index]
  else .error (.spanOutOfRange span.start span.stop c.length)

/-- The spans that hold items, with their cells: the narrowest first, and from left to right
within a width. -/
def spans (c : Chart κ σ) : List (Span × Cell κ σ) :=
  (Span.all c.length).filterMap fun span =>
    match c.cell span with
    | .ok cell => if cell.isEmpty then none else some (span, cell)
    | .error _ => none

/-- The counters of all cells together. -/
def stats (c : Chart κ σ) : Stats :=
  c.cells.toList.foldl (fun total cell => total + cell.stats) {}

/-! ## Offers -/

section Offers
variable [DecidableEq κ] [Ord κ] [LT σ] [DecidableLT σ] [Mul σ]

/-- **An offer to the cell of a span under a key**: whether the item is retained, the chart after
it, and the hasher after it. -/
def offer (c : Chart κ σ) (hasher : Hasher) (span : Span) (key : κ) (item : Item κ σ) :
    Except ChartError Bool × Chart κ σ × Hasher :=
  if h : span.Within c.length then
    have := Span.index_lt h
    match c.cells[span.index].offer hasher key item with
    | (result, cell, hasher) =>
      (result.mapError .fingerprint, { c with cells := c.cells.set span.index cell }, hasher)
  else (.error (.spanOutOfRange span.start span.stop c.length), c, hasher)

/-- An offer to the cell of a span under the key of the item. -/
def add (c : Chart κ σ) (hasher : Hasher) (span : Span) (item : Item κ σ) :
    Except ChartError Bool × Chart κ σ × Hasher :=
  c.offer hasher span item.key item

variable {m : Type → Type} [Monad m]

/-- Offers the items of one word, in order, and counts those retained on top of `kept`. -/
def seedWord (make : Nat → ScoredCategory σ → m (Item κ σ)) (word : Nat) :
    List (ScoredCategory σ) → Nat → Chart κ σ → Hasher →
      m (Except ChartError Nat × Chart κ σ × Hasher)
  | [], kept, c, hasher => return (.ok kept, c, hasher)
  | candidate :: candidates, kept, c, hasher => do
    let item ← make word candidate
    match c.add hasher (.word word) item with
    | (.error e, c, hasher) => return (.error e, c, hasher)
    | (.ok retained, c, hasher) =>
      seedWord make word candidates (if retained then kept + 1 else kept) c hasher

/-- Offers the items of the words from position `word` on. A word beyond the sentence is an error,
even if it has no candidates. -/
def seedFrom (make : Nat → ScoredCategory σ → m (Item κ σ)) (word : Nat) :
    List (List (ScoredCategory σ)) → Nat → Chart κ σ → Hasher →
      m (Except ChartError Nat × Chart κ σ × Hasher)
  | [], kept, c, hasher => return (.ok kept, c, hasher)
  | candidates :: rows, kept, c, hasher =>
    match c.cell (.word word) with
    | .error e => return (.error e, c, hasher)
    | .ok _ => do
      match ← seedWord make word candidates kept c hasher with
      | (.error e, c, hasher) => return (.error e, c, hasher)
      | (.ok kept, c, hasher) => seedFrom make (word + 1) rows kept c hasher

/-- **Offers an item for each candidate** to the cell of its word: the number of items retained,
the chart after them, and the hasher after them. Items are made word by word, each when it is
offered. An error ends the offers and undoes none. -/
def seed (c : Chart κ σ) (hasher : Hasher) (tags : List (List (ScoredCategory σ)))
    (make : Nat → ScoredCategory σ → m (Item κ σ)) :
    m (Except ChartError Nat × Chart κ σ × Hasher) :=
  seedFrom make 0 tags 0 c hasher

end Offers

end Chart

end CategorialChart
