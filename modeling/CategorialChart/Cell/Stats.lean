/-!
# What became of the offers

Every offer that a cell answers is counted once: as retained, or under the reason for which it was
refused. Replacements are counted among the retained as well.

* `Stats`: the counters, and their sum over cells.
* `Stats.retained`, `Stats.refused`: one offer more.
-/

namespace CategorialChart

/-- Why a cell refuses an item. -/
inductive Refusal where
  /-- A single-best cell holds an item under the key. -/
  | occupied
  /-- The item held under the key has an inside score that is not lower. -/
  | notBetter
  /-- The key holds as many items as it may. -/
  | count
  /-- The cost lies outside the beam of the first item under the key. -/
  | beam
  /-- An item with the same fingerprint is held under the key. -/
  | duplicate
deriving DecidableEq, Repr

/-- The counters of a cell, or of several cells together. -/
structure Stats where
  /-- All offers. -/
  offered : Nat := 0
  /-- Offers that were retained. -/
  admitted : Nat := 0
  /-- Retained offers that took the place of another item. -/
  replaced : Nat := 0
  /-- Offers refused as `Refusal.occupied`. -/
  occupied : Nat := 0
  /-- Offers refused as `Refusal.notBetter`. -/
  notBetter : Nat := 0
  /-- Offers refused as `Refusal.count`. -/
  count : Nat := 0
  /-- Offers refused as `Refusal.beam`. -/
  beam : Nat := 0
  /-- Offers refused as `Refusal.duplicate`. -/
  duplicate : Nat := 0
deriving DecidableEq, Repr

namespace Stats

/-- All refusals. -/
def rejected (s : Stats) : Nat := s.occupied + s.notBetter + s.count + s.beam + s.duplicate

/-- The counters after one more offer that was retained, perhaps in the place of another item. -/
def retained (s : Stats) (replaced : Bool) : Stats :=
  { s with
    offered := s.offered + 1
    admitted := s.admitted + 1
    replaced := if replaced then s.replaced + 1 else s.replaced }

/-- The counters after one more offer that was refused. -/
def refused (s : Stats) (why : Refusal) : Stats :=
  let s := { s with offered := s.offered + 1 }
  match why with
  | .occupied => { s with occupied := s.occupied + 1 }
  | .notBetter => { s with notBetter := s.notBetter + 1 }
  | .count => { s with count := s.count + 1 }
  | .beam => { s with beam := s.beam + 1 }
  | .duplicate => { s with duplicate := s.duplicate + 1 }

/-- The counters of two cells together. -/
instance : Add Stats where
  add s t :=
    { offered := s.offered + t.offered
      admitted := s.admitted + t.admitted
      replaced := s.replaced + t.replaced
      occupied := s.occupied + t.occupied
      notBetter := s.notBetter + t.notBetter
      count := s.count + t.count
      beam := s.beam + t.beam
      duplicate := s.duplicate + t.duplicate }

end Stats

end CategorialChart
