import CategorialChart.Derivation.Basic

/-!
# The contribution table

Every term that a derivation of a sentence can resolve has a random word, its contribution. A
table gives each argument slot of the grammar a slab of such words, one for each pair of positions
of a sentence of `maxLength` words. A slab is a stretch of one stream of random words; slots get
theirs in the order in which the grammar lists the categories, and a category that is listed again
gets none.

* `ContributionTable.build`: the table of a grammar.
* `ContributionTable.term`: the contribution of a term. A slot without a slab and a position
  outside the sentence are causes of a `TermError`, the first before the second.
* `ContributionTable.sum`: the contributions of several terms, combined by exclusive or.
-/

namespace CategorialChart

/-- What derivations with the same terms have in common: `0` without terms, and the exclusive or of
the contributions otherwise. -/
abbrev Fingerprint := UInt64

/-- Why a term has no contribution. -/
inductive TermError where
  /-- The slot has no slab: it belongs to no category of the grammar. -/
  | noSlab (slot : Slot)
  /-- A position lies outside the sentences that the table is made for. -/
  | outside (head argument maxLength : Nat)
deriving DecidableEq, Repr

/-- The text of the error. -/
def TermError.message : TermError → String
  | .noSlab slot =>
    s!"dependency {slot.category} slot {slot.index} has no entry in the contribution table"
  | .outside head argument maxLength =>
    s!"dependency {head}->{argument} outside contribution table sized for {maxLength} words"

/-- The contributions of the terms of a grammar. -/
structure ContributionTable where
  /-- The number of words of the longest sentence. -/
  maxLength : Nat
  /-- The random words. -/
  stream : Nat → UInt64
  /-- The slots that have a slab, each with the place in the stream where its slab begins. -/
  slabs : List (Slot × Nat) := []
  /-- The number of words that the slabs take from the stream. -/
  drawn : Nat := 0

namespace ContributionTable

/-- The number of slabs. -/
def size (t : ContributionTable) : Nat := t.slabs.length

/-- Whether there is no slab. -/
def isEmpty (t : ContributionTable) : Bool := t.slabs.isEmpty

/-- The place in the stream where the slab of a slot begins. -/
def offset? (t : ContributionTable) (slot : Slot) : Option Nat := t.slabs.lookup slot

/-- Whether a slot has a slab. -/
def contains (t : ContributionTable) (slot : Slot) : Bool := (t.offset? slot).isSome

/-- The table in which a slot has a slab: the next stretch of the stream, unless it has one. -/
def reserve (t : ContributionTable) (slot : Slot) : ContributionTable :=
  if t.contains slot then t
  else
    { t with
      slabs := t.slabs ++ [(slot, t.drawn)]
      drawn := t.drawn + t.maxLength * t.maxLength }

/-- **The table of a grammar**, for sentences of up to `maxLength` words. -/
def build (stream : Nat → UInt64) (maxLength : Nat) (categories : List Category) :
    ContributionTable :=
  (categories.flatMap Category.slots).foldl reserve { maxLength, stream }

/-- The contribution of a term. -/
def term (t : ContributionTable) (x : Term) : Except TermError UInt64 :=
  match t.offset? x.slot with
  | none => .error (.noSlab x.slot)
  | some offset =>
    if x.head < t.maxLength ∧ x.argument < t.maxLength then
      .ok (t.stream (offset + x.head * t.maxLength + x.argument))
    else .error (.outside x.head x.argument t.maxLength)

/-- The exclusive or of the contributions. The first term without one decides the error. -/
def sum (t : ContributionTable) : List Term → Except TermError Fingerprint
  | [] => .ok 0
  | x :: xs => do
    let first ← t.term x
    let others ← t.sum xs
    return first ^^^ others

/-- A short description of a table. -/
def describe (t : ContributionTable) : String :=
  "ContributionTable \x7b max_sentence_length: " ++ toString t.maxLength ++ ", slabs: " ++
    toString t.size ++ " \x7d"

end ContributionTable

end CategorialChart
