import CategorialChart.Proofs.Fingerprint.Memory
import Mathlib.Algebra.Ring.Parity
import Mathlib.Data.Finset.Fold
import Mathlib.Data.Finset.SymmDiff

/-! # Fingerprints tell parities

Exclusive or cancels pairs, so a fingerprint knows of each term only whether the unfolded tree
resolves it an odd number of times.

* `oddSet`: the members of a list that occur an odd number of times. Appending lists is the
  symmetric difference of their odd sets (`oddSet_append`).
* `ContributionTable.combine`: the contributions of a finite set of terms together. It turns
  symmetric differences into exclusive ors (`combine_symmDiff`).
* `ContributionTable.fingerprint_eq_sum`: the plain walk adds up the terms of the unfolded tree.
* `ContributionTable.fingerprint_eq`: the fingerprint is the `combine` of the odd terms.
* `fingerprint_parity`: the same of what a hasher in use answers, for one derivation and for two. -/

namespace CategorialChart

open scoped symmDiff
open CategorialChart.Derivation (OwnNumbers)

/-! ### Odd sets -/

section OddSet
variable {α : Type} [DecidableEq α]

/-- The members that occur an odd number of times. -/
def oddSet (l : List α) : Finset α := l.toFinset.filter fun x => Odd (l.count x)

theorem mem_oddSet {l : List α} {x : α} : x ∈ oddSet l ↔ Odd (l.count x) := by
  unfold oddSet
  rw [Finset.mem_filter, List.mem_toFinset]
  refine ⟨And.right, fun h => ⟨?_, h⟩⟩
  obtain ⟨k, hk⟩ := h
  exact List.count_pos_iff.mp (by omega)

@[simp] theorem oddSet_nil : oddSet ([] : List α) = ∅ := rfl

theorem oddSet_append (l m : List α) : oddSet (l ++ m) = oddSet l ∆ oddSet m := by
  ext x
  rw [Finset.mem_symmDiff, mem_oddSet, mem_oddSet, mem_oddSet, List.count_append, Nat.odd_add]
  rw [← Nat.not_odd_iff_even]
  tauto

theorem oddSet_singleton (x : α) : oddSet [x] = {x} := by
  ext y
  rw [mem_oddSet, Finset.mem_singleton, List.count_singleton]
  by_cases h : x = y
  · simp [h]
  · simp [h, Ne.symm h]

theorem oddSet_cons (x : α) (l : List α) : oddSet (x :: l) = {x} ∆ oddSet l := by
  rw [← oddSet_singleton x, ← oddSet_append]
  rfl

end OddSet

/-- The terms that the unfolded tree resolves an odd number of times. -/
def Derivation.oddTerms (d : Derivation) : Finset Term := oddSet d.terms

namespace ContributionTable

variable (t : ContributionTable)

/-! ### The contributions of a set of terms -/

/-- The contribution of a term, `0` where it has none. -/
def word (x : Term) : UInt64 :=
  match t.term x with
  | .ok w => w
  | .error _ => 0

/-- The contributions of a set of terms, combined by exclusive or. -/
def combine (S : Finset Term) : Fingerprint := S.fold (· ^^^ ·) 0 t.word

@[simp] theorem combine_empty : t.combine ∅ = 0 := rfl

@[simp] theorem combine_singleton (x : Term) : t.combine {x} = t.word x := by
  unfold combine
  rw [Finset.fold_singleton, UInt64.xor_zero]

/-- What two sets have in common cancels. -/
theorem combine_symmDiff (S T : Finset Term) :
    t.combine (S ∆ T) = t.combine S ^^^ t.combine T := by
  have hd : Disjoint (S ∆ T) (S ∩ T) := disjoint_symmDiff_inf S T
  have hu : (S ∆ T).disjUnion (S ∩ T) hd = S ∪ T := by
    rw [Finset.disjUnion_eq_union]
    exact symmDiff_sup_inf S T
  -- the union holds the common part once, so a further copy of it takes it away
  have h1 : t.combine (S ∪ T) = t.combine (S ∆ T) ^^^ t.combine (S ∩ T) := by
    unfold combine
    rw [← hu]
    exact @Finset.fold_disjUnion _ _ (· ^^^ ·) _ _ t.word (S ∆ T) (S ∩ T) 0 0 hd
  have h2 : t.combine (S ∪ T) ^^^ t.combine (S ∩ T) = t.combine S ^^^ t.combine T :=
    Finset.fold_union_inter
  rw [← h2, h1, UInt64.xor_assoc, UInt64.xor_self, UInt64.xor_zero]

variable {t}

theorem word_of_term {x : Term} {w : UInt64} (h : t.term x = .ok w) : t.word x = w := by
  unfold word
  rw [h]

/-! ### The plain walk -/

/-- The walk over a list of terms succeeds exactly if all of them have contributions, and then it
combines the odd ones. -/
theorem sum_eq : ∀ {xs : List Term} {f : Fingerprint}, t.sum xs = .ok f →
    (∀ x ∈ xs, t.term x = .ok (t.word x)) ∧ f = t.combine (oddSet xs)
  | [], f, h => by
    rw [sum] at h
    cases h
    exact ⟨by simp, rfl⟩
  | x :: xs, f, h => by
    rw [sum] at h
    rcases hx : t.term x with e | w
    · rw [hx] at h
      cases h
    rcases hs : t.sum xs with e | g
    · rw [hx, hs] at h
      cases h
    obtain ⟨h1, h2⟩ := sum_eq hs
    rw [hx, hs] at h
    cases h
    have hw := word_of_term hx
    refine ⟨fun y hy => ?_, ?_⟩
    · rcases List.mem_cons.mp hy with rfl | hy
      · rw [hx, hw]
      · exact h1 y hy
    · rw [oddSet_cons, combine_symmDiff, combine_singleton, hw, ← h2]

theorem sum_append : ∀ xs ys : List Term,
    t.sum (xs ++ ys) = do
      let first ← t.sum xs
      let others ← t.sum ys
      return first ^^^ others
  | [], ys => by
    rw [List.nil_append, sum]
    rcases t.sum ys with e | f
    · rfl
    · exact congrArg Except.ok UInt64.zero_xor.symm
  | x :: xs, ys => by
    rw [List.cons_append, sum, sum, sum_append xs ys]
    rcases t.term x with e | w
    · rfl
    rcases t.sum xs with e | f
    · rfl
    rcases t.sum ys with e | g
    · rfl
    exact congrArg Except.ok (UInt64.xor_assoc w f g).symm

mutual

/-- **The plain walk adds up the terms of the unfolded tree**, and fails at the first of them that
has no contribution. -/
theorem fingerprint_eq_sum : ∀ d : Derivation, t.fingerprint d = t.sum d.terms
  | ⟨id, category, children, dependencies⟩ => by
    rw [fingerprint, Derivation.terms, sum_append, fingerprintAll_eq_sum]

theorem fingerprintAll_eq_sum : ∀ ds : List Derivation,
    t.fingerprintAll ds = t.sum (Derivation.termsOf ds)
  | [] => by rw [fingerprintAll, Derivation.termsOf, sum]
  | d :: ds => by
    rw [fingerprintAll, Derivation.termsOf, sum_append, fingerprint_eq_sum,
      fingerprintAll_eq_sum]

end

/-- **The fingerprint is the combination of the odd terms.** -/
theorem fingerprint_eq {d : Derivation} {f : Fingerprint} (h : t.fingerprint d = .ok f) :
    (∀ x ∈ d.terms, t.term x = .ok (t.word x)) ∧ f = t.combine d.oddTerms := by
  rw [fingerprint_eq_sum] at h
  exact sum_eq h

/-- Derivations with the same odd terms have the same fingerprint. -/
theorem fingerprint_congr {d₁ d₂ : Derivation} {f₁ f₂ : Fingerprint}
    (h : d₁.oddTerms = d₂.oddTerms) (h₁ : t.fingerprint d₁ = .ok f₁)
    (h₂ : t.fingerprint d₂ = .ok f₂) : f₁ = f₂ := by
  rw [(fingerprint_eq h₁).2, (fingerprint_eq h₂).2, h]

end ContributionTable

/-- **Fingerprints tell parities.** What a hasher in use answers is the combination of the terms
that the unfolded tree resolves an odd number of times, all of which have contributions. So two
answers differ by the terms that only one of the trees resolves oddly, and not at all if there are
none. -/
theorem fingerprint_parity {t : ContributionTable} {D : Set Derivation} (hD : OwnNumbers D)
    {h₁ h₂ : Hasher} (hr₁ : h₁.Reached t D) (hr₂ : h₂.Reached t D) {d₁ d₂ : Derivation}
    (hd₁ : d₁ ∈ D) (hd₂ : d₂ ∈ D) {f₁ f₂ : Fingerprint} (hf₁ : (h₁.fingerprint d₁).1 = .ok f₁)
    (hf₂ : (h₂.fingerprint d₂).1 = .ok f₂) :
    (∀ x ∈ d₁.terms, t.term x = .ok (t.word x)) ∧
      f₁ = t.combine d₁.oddTerms ∧
      f₁ ^^^ f₂ = t.combine (d₁.oddTerms ∆ d₂.oddTerms) ∧
      (d₁.oddTerms = d₂.oddTerms → f₁ = f₂) := by
  rw [hr₁.fingerprint_eq hD hd₁] at hf₁
  rw [hr₂.fingerprint_eq hD hd₂] at hf₂
  obtain ⟨hw, h1⟩ := ContributionTable.fingerprint_eq hf₁
  obtain ⟨-, h2⟩ := ContributionTable.fingerprint_eq hf₂
  refine ⟨hw, h1, ?_, fun h => ContributionTable.fingerprint_congr h hf₁ hf₂⟩
  rw [h1, h2, ContributionTable.combine_symmDiff]

/-- A node that is raised, against two copies of it. -/
theorem fingerprint_parity_forest :
    (2 : Fingerprint) = Forest.table.combine Forest.raised.oddTerms ∧
      (2 : Fingerprint) ^^^ 0 =
        Forest.table.combine (Forest.raised.oddTerms ∆ Forest.paired.oddTerms) := by
  have hr₁ : Hasher.Reached Forest.table {Forest.paired, Forest.raised, Forest.twice, Forest.once}
      { table := Forest.table } := .new
  have hr₂ := hr₁.fingerprint (d := Forest.once) (by simp)
  have hf₁ : ((⟨Forest.table, ∅⟩ : Hasher).fingerprint Forest.raised).1 = .ok 2 :=
    (hr₁.fingerprint_eq Forest.own (by simp)).trans (by decide)
  have hf₂ := (hr₂.fingerprint_eq Forest.own (d := Forest.paired) (by simp)).trans
    (show Forest.table.fingerprint Forest.paired = .ok 0 by decide)
  have h := fingerprint_parity Forest.own hr₁ hr₂ (by simp) (by simp) hf₁ hf₂
  exact ⟨h.2.1, h.2.2.1⟩

end CategorialChart
