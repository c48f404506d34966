import CategorialChart.Proofs.Fingerprint.Memory
import CategorialChart.Proofs.Fingerprint.Parity

/-! # Tables of one shape

Two tables for the same categories and the same greatest length differ in their random words only.
So the same fingerprints fail with them, for the same reasons (`SameShape.fingerprint`), and the
same nodes are remembered (`SameShape.visit`). What the words decide is which fingerprints are
equal: a table `Separates` derivations if those with different odd terms have different
fingerprints. -/

namespace CategorialChart

/-- Why something failed, if it did. -/
def failure {ε α : Type} : Except ε α → Option ε
  | .error e => some e
  | .ok _ => none

theorem failure_cases {ε α β : Type} {r : Except ε α} {r' : Except ε β}
    (h : failure r = failure r') :
    (∃ e, r = .error e ∧ r' = .error e) ∨ ∃ a b, r = .ok a ∧ r' = .ok b := by
  rcases r with e | a <;> rcases r' with e' | b
  · obtain rfl : e = e' := Option.some.inj h
    exact Or.inl ⟨e, rfl, rfl⟩
  · cases h
  · cases h
  · exact Or.inr ⟨a, b, rfl, rfl⟩

/-! ### Nodes that are remembered -/

/-- The caches remember the same nodes. -/
def Cache.SameNodes (m m' : Cache) : Prop := ∀ i : Nat, i ∈ m ↔ i ∈ m'

namespace Cache.SameNodes

variable {m m' : Cache}

theorem isSome (h : m.SameNodes m') (i : Nat) : (m[i]?).isSome = (m'[i]?).isSome := by
  rw [Bool.eq_iff_iff, ← Std.HashMap.mem_iff_isSome_getElem?,
    ← Std.HashMap.mem_iff_isSome_getElem?, h i]

theorem insert (h : m.SameNodes m') (i : Nat) (f f' : Fingerprint) :
    Cache.SameNodes (Std.HashMap.insert m i f) (Std.HashMap.insert m' i f') := by
  intro j
  rw [Std.HashMap.mem_insert, Std.HashMap.mem_insert, h j]

theorem size (h : m.SameNodes m') : Std.HashMap.size m = Std.HashMap.size m' := by
  rw [← Std.HashMap.length_keys, ← Std.HashMap.length_keys]
  refine List.Perm.length_eq ((List.perm_ext_iff_of_nodup ?_ ?_).mpr fun i => ?_)
  · exact Std.HashMap.nodup_keys
  · exact Std.HashMap.nodup_keys
  · rw [Std.HashMap.mem_keys, Std.HashMap.mem_keys, h i]

end Cache.SameNodes

namespace ContributionTable

/-- **Tables of one shape** have slabs for the same slots, at the same places. -/
structure SameShape (t t' : ContributionTable) : Prop where
  maxLength : t.maxLength = t'.maxLength
  slabs : t.slabs = t'.slabs
  drawn : t.drawn = t'.drawn

variable {t t' : ContributionTable}

namespace SameShape

theorem reserve (h : SameShape t t') (s : Slot) : SameShape (t.reserve s) (t'.reserve s) := by
  have hcontains : t.contains s = t'.contains s := by
    unfold contains offset?
    rw [h.slabs]
  unfold ContributionTable.reserve
  rw [← hcontains]
  split
  · exact h
  · refine ⟨h.maxLength, ?_, ?_⟩
    · rw [h.slabs, h.drawn]
    · rw [h.maxLength, h.drawn]

theorem foldl_reserve : ∀ (slots : List Slot) {t t' : ContributionTable}, SameShape t t' →
    SameShape (slots.foldl ContributionTable.reserve t) (slots.foldl ContributionTable.reserve t')
  | [], _, _, h => h
  | s :: slots, _, _, h => foldl_reserve slots (h.reserve s)

theorem build (stream stream' : Nat → UInt64) (maxLength : Nat) (categories : List Category) :
    SameShape (.build stream maxLength categories) (.build stream' maxLength categories) :=
  foldl_reserve _ ⟨rfl, rfl, rfl⟩

/-! ### Failures -/

theorem term (h : SameShape t t') (x : Term) : failure (t.term x) = failure (t'.term x) := by
  have hoffset : t.offset? x.slot = t'.offset? x.slot := by
    unfold offset?
    rw [h.slabs]
  unfold ContributionTable.term
  rw [← hoffset, ← h.maxLength]
  rcases t.offset? x.slot with _ | offset
  · rfl
  · dsimp only
    split <;> rfl

theorem sum (h : SameShape t t') : ∀ xs : List Term, failure (t.sum xs) = failure (t'.sum xs)
  | [] => rfl
  | x :: xs => by
    rw [ContributionTable.sum, ContributionTable.sum]
    rcases failure_cases (h.term x) with ⟨e, h1, h2⟩ | ⟨w, w', h1, h2⟩ <;> rw [h1, h2]
    · rfl
    rcases failure_cases (h.sum xs) with ⟨e, h3, h4⟩ | ⟨f, f', h3, h4⟩ <;> rw [h3, h4] <;> rfl

/-- **The same fingerprints fail**, and for the same reasons. -/
theorem fingerprint (h : SameShape t t') (d : Derivation) :
    failure (t.fingerprint d) = failure (t'.fingerprint d) := by
  rw [fingerprint_eq_sum, fingerprint_eq_sum, h.sum]

mutual

/-- **The same nodes are remembered** after a fingerprint was taken. -/
theorem visit (h : SameShape t t') : ∀ (d : Derivation) {m m' : Cache}, m.SameNodes m' →
    failure (m.visit t d).1 = failure (m'.visit t' d).1 ∧
      (m.visit t d).2.SameNodes (m'.visit t' d).2
  | ⟨id, category, children, dependencies⟩, m, m', hm => by
    have hid := hm.isSome id
    rw [Cache.visit, Cache.visit]
    rcases hf : m[id]? with _ | f <;> rcases hf' : m'[id]? with _ | f' <;> rw [hf, hf'] at hid
    · rcases failure_cases (h.sum (Derivation.ownTerms ⟨id, category, children, dependencies⟩)) with
        ⟨e, h1, h2⟩ | ⟨own, own', h1, h2⟩ <;> rw [h1, h2]
      · exact ⟨rfl, hm⟩
      obtain ⟨h3, h4⟩ := visitAll h children hm
      rcases hv : Cache.visitAll t m children with ⟨e | below, d⟩ <;>
        rcases hv' : Cache.visitAll t' m' children with ⟨e' | below', d'⟩ <;>
          rw [hv, hv'] at h3 h4
      · exact ⟨h3, h4⟩
      · cases h3
      · cases h3
      · exact ⟨rfl, h4.insert id _ _⟩
    · cases hid
    · cases hid
    · exact ⟨rfl, hm⟩

theorem visitAll (h : SameShape t t') : ∀ (ds : List Derivation) {m m' : Cache}, m.SameNodes m' →
    failure (m.visitAll t ds).1 = failure (m'.visitAll t' ds).1 ∧
      (m.visitAll t ds).2.SameNodes (m'.visitAll t' ds).2
  | [], m, m', hm => by
    rw [Cache.visitAll, Cache.visitAll]
    exact ⟨rfl, hm⟩
  | d :: ds, m, m', hm => by
    obtain ⟨h1, h2⟩ := visit h d hm
    rw [Cache.visitAll, Cache.visitAll]
    rcases hv : Cache.visit t m d with ⟨e | first, m₁⟩ <;>
      rcases hv' : Cache.visit t' m' d with ⟨e' | first', m₁'⟩ <;> rw [hv, hv'] at h1 h2
    · exact ⟨h1, h2⟩
    · cases h1
    · cases h1
    obtain ⟨h3, h4⟩ := visitAll h ds h2
    dsimp only at h3 h4 ⊢
    rcases hw : Cache.visitAll t m₁ ds with ⟨e | others, m₂⟩ <;>
      rcases hw' : Cache.visitAll t' m₁' ds with ⟨e' | others', m₂'⟩ <;> rw [hw, hw'] at h3 h4
    · exact ⟨h3, h4⟩
    · cases h3
    · cases h3
    · exact ⟨rfl, h4⟩

end

end SameShape

/-! ### Separation -/

/-- **The table separates** derivations: those that do not resolve the same terms an odd number of
times have different fingerprints. -/
def Separates (t : ContributionTable) (P : Set Derivation) : Prop :=
  ∀ d ∈ P, ∀ e ∈ P, d.oddTerms ≠ e.oddTerms →
    ∀ f, t.fingerprint d = .ok f → t.fingerprint e ≠ .ok f

theorem Separates.mono {P Q : Set Derivation} (h : t.Separates Q) (hPQ : P ⊆ Q) :
    t.Separates P :=
  fun d hd e he => h d (hPQ hd) e (hPQ he)

/-- Where a table separates, fingerprints are equal exactly if the odd terms are. -/
theorem Separates.eq_iff {P : Set Derivation} (h : t.Separates P) {d e : Derivation} (hd : d ∈ P)
    (he : e ∈ P) {f : Fingerprint} (hf : t.fingerprint d = .ok f)
    (hfe : failure (t.fingerprint e) = none) :
    t.fingerprint e = .ok f ↔ d.oddTerms = e.oddTerms := by
  constructor
  · intro h2
    by_contra hne
    exact h d hd e he hne f hf h2
  · intro hodd
    rcases hg : t.fingerprint e with e' | g
    · rw [hg] at hfe
      cases hfe
    · rw [fingerprint_congr hodd hf hg]

end ContributionTable

end CategorialChart
