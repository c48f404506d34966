import CategorialChart.Fingerprint.Hasher
import CategorialChart.Proofs.Derivation.Numbers

/-! # A hasher remembers only true fingerprints

A hasher skips the nodes that it remembers. Where every node has a number of its own
(`OwnNumbers`), a cache built by visits is *sound*: what it holds under the number of a node is the
fingerprint of that node, taken by walking its unfolded tree (`Cache.Sound`).

* `Cache.visit_spec`: a visit from a sound cache gives the fingerprint of the plain walk, an error
  being the same error, and leaves a sound cache behind, also when it fails halfway.
* `Hasher.Reached`: the hashers that come about by taking fingerprints and forgetting them.
  `Hasher.Reached.fingerprint_eq`: their fingerprints are those of the plain walk.
* `Hasher.fingerprint_withDependencies`: where dependencies are resolved for a node after it was
  visited, its number is no longer its own, and the hasher gives the fingerprint from before.

A remembered fingerprint hides no error: if the walk from a node succeeds, so does the walk from
each node below it. So soundness says all that a later visit has to know of what it skips. -/

namespace CategorialChart

open CategorialChart.Derivation (nodes OwnNumbers mem_nodes child_mem_nodes)

variable {t : ContributionTable} {D : Set Derivation}

/-! ### Fingerprints that can be taken -/

namespace ContributionTable

theorem fingerprintAll_ok : ∀ {ds : List Derivation},
    (∃ f, t.fingerprintAll ds = .ok f) ↔ ∀ d ∈ ds, ∃ f, t.fingerprint d = .ok f
  | [] => ⟨fun _ d hd => absurd hd List.not_mem_nil, fun _ => ⟨0, by rw [fingerprintAll]⟩⟩
  | d :: ds => by
    rw [List.forall_mem_cons, ← fingerprintAll_ok, fingerprintAll]
    constructor
    · rintro ⟨f, hf⟩
      rcases hfirst : t.fingerprint d with e | first
      · rw [hfirst] at hf
        cases hf
      rcases hothers : t.fingerprintAll ds with e | others
      · rw [hfirst, hothers] at hf
        cases hf
      · exact ⟨⟨first, rfl⟩, others, rfl⟩
    · rintro ⟨⟨first, hfirst⟩, others, hothers⟩
      exact ⟨first ^^^ others, by rw [hfirst, hothers]; rfl⟩

/-- **A fingerprint can be taken** if those of the children can and the terms of the node have
contributions. -/
theorem fingerprint_ok {d : Derivation} : (∃ f, t.fingerprint d = .ok f) ↔
    (∃ own, t.sum d.ownTerms = .ok own) ∧ ∀ c ∈ d.children, ∃ f, t.fingerprint c = .ok f := by
  obtain ⟨id, category, children, dependencies⟩ := d
  rw [← fingerprintAll_ok, fingerprint]
  constructor
  · rintro ⟨f, hf⟩
    rcases hown : t.sum (Derivation.ownTerms ⟨id, category, children, dependencies⟩) with e | own
    · rw [hown] at hf
      cases hf
    rcases hbelow : t.fingerprintAll children with e | below
    · rw [hown, hbelow] at hf
      cases hf
    · exact ⟨⟨own, rfl⟩, below, rfl⟩
  · rintro ⟨⟨own, hown⟩, below, hbelow⟩
    exact ⟨own ^^^ below, by rw [hown, hbelow]; rfl⟩

end ContributionTable

/-! ### The cache -/

/-- What the cache holds for the nodes of `D` are their fingerprints. -/
def Cache.Sound (t : ContributionTable) (D : Set Derivation) (cache : Cache) : Prop :=
  ∀ a ∈ nodes D, ∀ f, cache[a.id]? = some f → t.fingerprint a = .ok f

namespace Cache

theorem sound_empty : Cache.Sound t D ∅ := by
  intro a _ f h
  simp at h

theorem Sound.insert (hD : OwnNumbers D) {cache : Cache} (hc : cache.Sound t D) {d : Derivation}
    (hd : d ∈ nodes D) {f : Fingerprint} (hf : t.fingerprint d = .ok f) :
    Cache.Sound t D (cache.insert d.id f) := by
  intro a ha g hg
  rw [Std.HashMap.getElem?_insert] at hg
  split at hg
  · next h =>
    have had : d = a := hD hd ha (by simpa using h)
    rw [← had, hf, Option.some.inj hg]
  · exact hc a ha g hg

mutual

/-- **A visit from a sound cache** gives the fingerprint of the plain walk and leaves a sound
cache. -/
theorem visit_spec (hD : OwnNumbers D) : ∀ (d : Derivation) (cache : Cache), d ∈ nodes D →
    cache.Sound t D →
      (cache.visit t d).1 = t.fingerprint d ∧ (cache.visit t d).2.Sound t D
  | ⟨id, category, children, dependencies⟩, cache, hd, hc => by
    rw [Cache.visit]
    split
    · next f hf => exact ⟨(hc _ hd f hf).symm, hc⟩
    · rw [ContributionTable.fingerprint]
      split
      · next e he => rw [he]; exact ⟨rfl, hc⟩
      · next own hown =>
        obtain ⟨h1, h2⟩ := visitAll_spec hD children cache
          (fun c hm => child_mem_nodes hd hm) hc
        rw [hown]
        split
        · next e cache' hv =>
          rw [hv] at h1 h2
          rw [← h1]
          exact ⟨rfl, h2⟩
        · next below cache' hv =>
          rw [hv] at h1 h2
          rw [← h1]
          refine ⟨rfl, h2.insert hD hd ?_⟩
          rw [ContributionTable.fingerprint, hown, ← h1]
          rfl

/-- The same for several derivations, visited from left to right. -/
theorem visitAll_spec (hD : OwnNumbers D) : ∀ (ds : List Derivation) (cache : Cache),
    (∀ d ∈ ds, d ∈ nodes D) → cache.Sound t D →
      (cache.visitAll t ds).1 = t.fingerprintAll ds ∧ (cache.visitAll t ds).2.Sound t D
  | [], cache, _, hc => by
    rw [Cache.visitAll, ContributionTable.fingerprintAll]
    exact ⟨rfl, hc⟩
  | d :: ds, cache, hds, hc => by
    obtain ⟨h1, h2⟩ := visit_spec hD d cache (hds d (by simp)) hc
    rw [Cache.visitAll, ContributionTable.fingerprintAll, ← h1]
    split
    · next e cache' hv =>
      rw [hv] at h2 ⊢
      exact ⟨rfl, h2⟩
    · next first cache' hv =>
      rw [hv] at h2 ⊢
      obtain ⟨h3, h4⟩ := visitAll_spec hD ds cache' (fun c hm => hds c (by simp [hm])) h2
      rw [← h3]
      split
      · next e cache'' hw =>
        rw [hw] at h4 ⊢
        exact ⟨rfl, h4⟩
      · next others cache'' hw =>
        rw [hw] at h4 ⊢
        exact ⟨rfl, h4⟩

end

/-- A visit of a node that is remembered looks at its number only. -/
theorem visit_of_remembered {cache : Cache} {d : Derivation} {f : Fingerprint}
    (h : cache[d.id]? = some f) : cache.visit t d = (.ok f, cache) := by
  obtain ⟨id, category, children, dependencies⟩ := d
  rw [visit, h]

/-- A visit that gives a fingerprint remembers it. -/
theorem remembered_of_visit {cache : Cache} {d : Derivation} {f : Fingerprint}
    (h : (cache.visit t d).1 = .ok f) : (cache.visit t d).2[d.id]? = some f := by
  obtain ⟨id, category, children, dependencies⟩ := d
  rw [visit] at h ⊢
  rcases hid : cache[id]? with _ | g
  · rcases hown : t.sum (Derivation.ownTerms ⟨id, category, children, dependencies⟩) with e | own
    · rw [hid, hown] at h
      cases h
    rcases hv : cache.visitAll t children with ⟨e | below, cache'⟩ <;> rw [hid, hown, hv] at h
    · cases h
    · cases h
      exact Std.HashMap.getElem?_insert_self
  · rw [hid] at h
    cases h
    exact hid

mutual

/-- What the plain walk can take, a visit from any cache can take. -/
theorem visit_ok : ∀ (d : Derivation) (cache : Cache), (∃ f, t.fingerprint d = .ok f) →
    ∃ f, (cache.visit t d).1 = .ok f
  | ⟨id, category, children, dependencies⟩, cache, h => by
    obtain ⟨⟨own, hown⟩, hchildren⟩ := ContributionTable.fingerprint_ok.mp h
    rw [Cache.visit]
    split
    · next f _ => exact ⟨f, rfl⟩
    obtain ⟨below, hbelow⟩ := visitAll_ok children cache hchildren
    rw [hown]
    dsimp only
    rcases hv : cache.visitAll t children with ⟨result, cache'⟩
    rw [hv] at hbelow
    obtain rfl : result = .ok below := hbelow
    exact ⟨own ^^^ below, rfl⟩

/-- The same for several derivations. -/
theorem visitAll_ok : ∀ (ds : List Derivation) (cache : Cache),
    (∀ d ∈ ds, ∃ f, t.fingerprint d = .ok f) → ∃ f, (cache.visitAll t ds).1 = .ok f
  | [], cache, _ => ⟨0, by rw [Cache.visitAll]⟩
  | d :: ds, cache, h => by
    obtain ⟨first, hfirst⟩ := visit_ok d cache (h d List.mem_cons_self)
    rw [Cache.visitAll]
    rcases hv : cache.visit t d with ⟨result, cache'⟩
    rw [hv] at hfirst
    obtain rfl : result = .ok first := hfirst
    dsimp only
    obtain ⟨others, hothers⟩ := visitAll_ok ds cache' fun c hc => h c (List.mem_cons_of_mem d hc)
    rcases hw : cache'.visitAll t ds with ⟨result, cache''⟩
    rw [hw] at hothers
    obtain rfl : result = .ok others := hothers
    exact ⟨first ^^^ others, rfl⟩

end

end Cache

/-! ### The hasher -/

namespace Hasher

/-- The hasher comes about from a new one of the table by taking fingerprints of the derivations of
`D`, failed ones among them, and by forgetting them. -/
inductive Reached (t : ContributionTable) (D : Set Derivation) : Hasher → Prop
  | new : Reached t D { table := t }
  | fingerprint {h : Hasher} {d : Derivation} : d ∈ D → Reached t D h →
      Reached t D (h.fingerprint d).2
  | clear {h : Hasher} : Reached t D h → Reached t D h.clear

theorem Reached.used {h : Hasher} (hr : Reached t D h) {d : Derivation} (hd : d ∈ D) (b : Bool) :
    Reached t D (if b then (h.fingerprint d).2 else h) := by
  split
  · exact hr.fingerprint hd
  · exact hr

@[simp] theorem table_fingerprint (h : Hasher) (d : Derivation) :
    (h.fingerprint d).2.table = h.table := rfl

@[simp] theorem table_clear (h : Hasher) : h.clear.table = h.table := rfl

theorem fingerprint_spec (hD : OwnNumbers D) {h : Hasher} (hs : h.cache.Sound h.table D)
    {d : Derivation} (hd : d ∈ D) :
    (h.fingerprint d).1 = h.table.fingerprint d ∧
      (h.fingerprint d).2.cache.Sound h.table D :=
  Cache.visit_spec hD d h.cache (mem_nodes hd) hs

theorem fingerprint_ok {h : Hasher} {d : Derivation} (hf : ∃ f, h.table.fingerprint d = .ok f) :
    ∃ f, (h.fingerprint d).1 = .ok f :=
  Cache.visit_ok d h.cache hf

/-- **Dependencies that come too late are not looked at.** A node that has been asked for its
fingerprint keeps this fingerprint until the hasher is cleared, whichever dependencies are resolved
for it. So `OwnNumbers` is what a hasher asks of those who build derivations. -/
theorem fingerprint_withDependencies {h : Hasher} {d : Derivation} {f : Fingerprint}
    (hf : (h.fingerprint d).1 = .ok f) (dependencies : List Dependency) :
    (h.fingerprint d).2.fingerprint (d.withDependencies dependencies) =
      (.ok f, (h.fingerprint d).2) := by
  have hlate : (h.cache.visit h.table d).2.visit h.table (d.withDependencies dependencies) =
      (.ok f, (h.cache.visit h.table d).2) :=
    Cache.visit_of_remembered (Cache.remembered_of_visit hf)
  exact congrArg (fun r => (r.1, ({ h with cache := r.2 } : Hasher))) hlate

theorem Reached.table_eq {h : Hasher} (hr : Reached t D h) : h.table = t := by
  induction hr with
  | new => rfl
  | fingerprint _ _ ih => rw [table_fingerprint, ih]
  | clear _ ih => rw [table_clear, ih]

theorem Reached.sound (hD : OwnNumbers D) {h : Hasher} (hr : Reached t D h) :
    h.cache.Sound t D := by
  induction hr with
  | new => exact Cache.sound_empty
  | @fingerprint h d hd hr ih =>
    have ht := hr.table_eq
    subst ht
    exact (fingerprint_spec hD ih hd).2
  | clear _ _ => exact Cache.sound_empty

/-- **A hasher in use takes the fingerprints of the plain walk.** -/
theorem Reached.fingerprint_eq (hD : OwnNumbers D) {h : Hasher} (hr : Reached t D h)
    {d : Derivation} (hd : d ∈ D) : (h.fingerprint d).1 = t.fingerprint d := by
  have hs := hr.sound hD
  have ht := hr.table_eq
  subst ht
  exact (fingerprint_spec hD hs hd).1

end Hasher

/-- A table with words for the terms of the small forest. -/
def Forest.table : ContributionTable := .build (fun i => UInt64.ofNat (i + 1)) 4 [determiner]

end CategorialChart
