import CategorialChart.Fingerprint.Basic
import Std.Data.HashMap

/-!
# Remembered fingerprints

A hasher takes fingerprints for the sentence in flight. It remembers the fingerprint of every
node, so a node that is shared by many derivations, or many times by one, is visited once.

* `Cache.visit`: the fingerprint of a derivation, with what is remembered afterwards. When a term
  has no contribution, the nodes that were complete by then stay remembered; the node that
  resolves the term and the nodes above it are not.
* `Hasher`: a table with its cache. `Hasher.clear` forgets the sentence and keeps the table.
-/

namespace CategorialChart

/-- The fingerprints that are remembered, by the numbers of their nodes. -/
abbrev Cache := Std.HashMap Nat Fingerprint

mutual

/-- The fingerprint of a derivation, remembered or computed, and the cache after it. -/
def Cache.visit (t : ContributionTable) (cache : Cache) :
    Derivation → Except TermError Fingerprint × Cache
  | ⟨id, category, children, dependencies⟩ =>
    match cache[id]? with
    | some f => (.ok f, cache)
    | none =>
      match t.sum (Derivation.ownTerms ⟨id, category, children, dependencies⟩) with
      | .error e => (.error e, cache)
      | .ok own =>
        match Cache.visitAll t cache children with
        | (.error e, cache) => (.error e, cache)
        | (.ok below, cache) => (.ok (own ^^^ below), cache.insert id (own ^^^ below))

/-- The exclusive or of the fingerprints of several derivations, visited from left to right, and the
cache after them. -/
def Cache.visitAll (t : ContributionTable) (cache : Cache) :
    List Derivation → Except TermError Fingerprint × Cache
  | [] => (.ok 0, cache)
  | d :: ds =>
    match Cache.visit t cache d with
    | (.error e, cache) => (.error e, cache)
    | (.ok first, cache) =>
      match Cache.visitAll t cache ds with
      | (.error e, cache) => (.error e, cache)
      | (.ok others, cache) => (.ok (first ^^^ others), cache)

end

/-- A contribution table with the fingerprints that are remembered for the sentence in flight. -/
structure Hasher where
  /-- The table. -/
  table : ContributionTable
  /-- What is remembered. -/
  cache : Cache := ∅

namespace Hasher

/-- **The fingerprint of a derivation**, and the hasher that remembers it. -/
def fingerprint (h : Hasher) (d : Derivation) : Except TermError Fingerprint × Hasher :=
  let (result, cache) := h.cache.visit h.table d
  (result, { h with cache })

/-- The number of nodes that are remembered. -/
def cached (h : Hasher) : Nat := h.cache.size

/-- Forgets every fingerprint. -/
def clear (h : Hasher) : Hasher := { h with cache := ∅ }

end Hasher

end CategorialChart
