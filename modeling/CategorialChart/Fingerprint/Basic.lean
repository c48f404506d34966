import CategorialChart.Fingerprint.Table

/-!
# Fingerprints

The fingerprint of a derivation is the exclusive or of the contributions of its own terms and of the
fingerprints of its children. Derivations that resolve the same terms have the same fingerprint
however they are bracketed, and terms that occur twice cancel.

`ContributionTable.fingerprint` walks the unfolded tree. It says what a fingerprint is;
`Hasher.fingerprint` computes it without walking a shared node twice.
-/

namespace CategorialChart.ContributionTable

mutual

/-- **The fingerprint of a derivation.** The first term without a contribution decides the error,
the terms of a node coming before those below it. -/
def fingerprint (t : ContributionTable) : Derivation → Except TermError Fingerprint
  | ⟨id, category, children, dependencies⟩ => do
    let own ← t.sum (Derivation.ownTerms ⟨id, category, children, dependencies⟩)
    let below ← t.fingerprintAll children
    return own ^^^ below

/-- The exclusive or of the fingerprints of several derivations. -/
def fingerprintAll (t : ContributionTable) : List Derivation → Except TermError Fingerprint
  | [] => .ok 0
  | d :: ds => do
    let first ← t.fingerprint d
    let others ← t.fingerprintAll ds
    return first ^^^ others

end

end CategorialChart.ContributionTable
