import CategorialChart.Proofs.Fingerprint.Walk
import Mathlib.Data.Set.Card

/-! # What a hasher remembers

Where every node has a number of its own, a hasher remembers what the walks of its calls have
completed, and nothing else. A call that returns has completed all nodes of its derivation, and one
that fails those of the trees that were complete when its walk broke.

A visit ends at a node that is remembered, so it would miss the nodes below it if these were not
remembered as well. This is why the invariant asks for sets of nodes that are closed downwards
(`Complete`).

* `Cache.holds_visit`: a visit adds what the walk completes.
* `Hasher.Taken`: the invariant of a hasher, given its calls since it was last cleared.
* `Hasher.Extent`, `Hasher.Taken.extent`: what is remembered, as a property of the calls.
* `Hasher.Taken.cached_fingerprint`: by how much a call that returns raises the number of nodes. -/

namespace CategorialChart

open ContributionTable (Breaks completed_of_ok completed_of_breaks completed_of_own
  completed_of_own_error completed_spec completedAll_cons fingerprint_error_iff)
open CategorialChart.Derivation (Occurs nodes OwnNumbers mem_nodes child_mem_nodes)

variable {t : ContributionTable} {D S S' : Set Derivation}

/-! ### Sets of nodes -/

/-- The nodes are nodes of `D`, and with each of them those below it are in the set. -/
structure Complete (D S : Set Derivation) : Prop where
  sub : S ⊆ nodes D
  closed : ∀ a ∈ S, ∀ b, Occurs b a → b ∈ S

theorem Complete.union (h : Complete D S) (h' : Complete D S') : Complete D (S ∪ S') where
  sub := Set.union_subset h.sub h'.sub
  closed a ha b hb := by
    rcases ha with ha | ha
    · exact Or.inl (h.closed a ha b hb)
    · exact Or.inr (h'.closed a ha b hb)

theorem complete_completed {d : Derivation} (hd : d ∈ nodes D) : Complete D (t.completed d) where
  sub a ha := by
    obtain ⟨x, hx, hdx⟩ := hd
    exact ⟨x, hx, hdx.trans (completed_spec ha).1⟩
  closed a ha := (completed_spec ha).2.2

/-! ### The cache -/

namespace Cache

/-- The numbers for which something is remembered are those of the nodes. -/
def Holds (cache : Cache) (S : Set Derivation) : Prop :=
  ∀ id, id ∈ cache ↔ ∃ a ∈ S, a.id = id

theorem holds_empty : Cache.Holds ∅ ∅ := by simp [Holds]

theorem Holds.insert {cache : Cache} (h : cache.Holds S) (d : Derivation) (f : Fingerprint) :
    Cache.Holds (cache.insert d.id f) (insert d S) := by
  intro id
  rw [Std.HashMap.mem_insert, h id, Set.exists_mem_insert, beq_iff_eq]

/-- The size of a cache is the number of the numbers for which something is remembered. -/
theorem size_eq (cache : Cache) : (cache.size : ℕ∞) = {id | id ∈ cache}.encard := by
  have hkeys : {id | id ∈ cache} = ↑cache.keys.toFinset := by
    ext id
    simp
  rw [hkeys, Set.encard_coe_eq_coe_finsetCard, List.toFinset_card_of_nodup Std.HashMap.nodup_keys,
    Std.HashMap.length_keys]

/-- A node is remembered if its number is. -/
theorem Holds.id_mem (hD : OwnNumbers D) {cache : Cache} (h : cache.Holds S) (hS : Complete D S)
    {a : Derivation} (ha : a ∈ nodes D) : a.id ∈ cache ↔ a ∈ S := by
  rw [h]
  constructor
  · rintro ⟨b, hb, hid⟩
    rwa [← hD (hS.sub hb) ha hid]
  · exact fun ha => ⟨a, ha, rfl⟩

mutual

/-- **A visit adds what the walk completes**, whether it succeeds or fails. -/
theorem holds_visit (hD : OwnNumbers D) : ∀ (d : Derivation) (cache : Cache) {S : Set Derivation},
    d ∈ nodes D → cache.Sound t D → Complete D S → cache.Holds S →
      (cache.visit t d).2.Holds (S ∪ t.completed d)
  | ⟨id, category, children, dependencies⟩, cache, S, hd, hs, hS, hc => by
    have hchildren : ∀ c ∈ children, c ∈ nodes D := fun c hm => child_mem_nodes hd hm
    have hplain := (visitAll_spec hD children cache hchildren hs).1
    have hbelow := holdsAll_visit hD children cache hchildren hs hS hc
    rw [Cache.visit]
    split
    · next f hf =>
      -- what is below a remembered node is remembered
      have hmem : id ∈ cache := Std.HashMap.mem_iff_isSome_getElem?.mpr (by rw [hf]; rfl)
      have hin := (hc.id_mem hD hS hd).mp hmem
      have hsub : t.completed ⟨id, category, children, dependencies⟩ ⊆ S := fun a ha =>
        hS.closed _ hin a (completed_spec ha).1
      rw [Set.union_eq_self_of_subset_right hsub]
      exact hc
    rcases hown : t.sum (Derivation.ownTerms ⟨id, category, children, dependencies⟩) with e | own
    · rw [completed_of_own_error hown, Set.union_empty]
      exact hc
    obtain ⟨hfail, hok⟩ := completed_of_own hown
    dsimp only at hfail hok ⊢
    rcases hv : cache.visitAll t children with ⟨e | below, cache'⟩ <;> rw [hv] at hplain hbelow
    · rw [hfail e hplain.symm]
      exact hbelow
    · rw [hok below hplain.symm, Set.union_insert]
      exact hbelow.insert ⟨id, category, children, dependencies⟩ (own ^^^ below)

/-- The same for several derivations, visited from left to right. -/
theorem holdsAll_visit (hD : OwnNumbers D) : ∀ (ds : List Derivation) (cache : Cache)
    {S : Set Derivation}, (∀ d ∈ ds, d ∈ nodes D) → cache.Sound t D → Complete D S →
      cache.Holds S → (cache.visitAll t ds).2.Holds (S ∪ t.completedAll ds)
  | [], cache, S, _, _, _, hc => by
    rw [Cache.visitAll, ContributionTable.completedAll, Set.union_empty]
    exact hc
  | d :: ds, cache, S, hds, hs, hS, hc => by
    obtain ⟨hd, hrest⟩ := List.forall_mem_cons.mp hds
    obtain ⟨hplain, hs'⟩ := visit_spec hD d cache hd hs
    have hfirst := holds_visit hD d cache hd hs hS hc
    obtain ⟨hfail, hok⟩ := completedAll_cons (t := t) d ds
    rw [Cache.visitAll]
    rcases hv : cache.visit t d with ⟨e | first, cache'⟩ <;> rw [hv] at hplain hs' hfirst
    · rw [hfail e hplain.symm]
      exact hfirst
    have hothers := holdsAll_visit hD ds cache' hrest hs' (hS.union (complete_completed hd)) hfirst
    rw [hok first hplain.symm, ← Set.union_assoc]
    dsimp only
    rcases hw : cache'.visitAll t ds with ⟨e | others, cache''⟩ <;> rw [hw] at hothers <;>
      exact hothers

end

end Cache

/-! ### The calls of a hasher -/

/-- The nodes that the walks of several calls complete. -/
def ContributionTable.completedBy (t : ContributionTable) (calls : List Derivation) :
    Set Derivation :=
  {a | ∃ d ∈ calls, a ∈ t.completed d}

theorem ContributionTable.completedBy_nil : t.completedBy [] = ∅ := by
  ext a
  simp [completedBy]

theorem ContributionTable.completedBy_concat (calls : List Derivation) (d : Derivation) :
    t.completedBy (calls ++ [d]) = t.completedBy calls ∪ t.completed d := by
  ext a
  simp [completedBy, or_and_right, exists_or]

namespace Hasher

/-- **The invariant**: the hasher is in use and remembers what its calls have completed since it was
last cleared. -/
structure Taken (t : ContributionTable) (D : Set Derivation) (calls : List Derivation)
    (h : Hasher) : Prop where
  reached : h.Reached t D
  calls_mem : ∀ d ∈ calls, d ∈ D
  holds : h.cache.Holds (t.completedBy calls)

variable {h : Hasher} {calls : List Derivation} {d : Derivation}

theorem taken_new : Taken t D [] { table := t } where
  reached := .new
  calls_mem := by simp
  holds := by
    rw [ContributionTable.completedBy_nil]
    exact Cache.holds_empty

namespace Taken

theorem clear (hh : h.Taken t D calls) : h.clear.Taken t D [] where
  reached := hh.reached.clear
  calls_mem := by simp
  holds := by
    rw [ContributionTable.completedBy_nil]
    exact Cache.holds_empty

theorem complete (hh : h.Taken t D calls) : Complete D (t.completedBy calls) where
  sub := by
    rintro a ⟨d, hd, ha⟩
    exact (complete_completed (mem_nodes (hh.calls_mem d hd))).sub ha
  closed := by
    rintro a ⟨d, hd, ha⟩ b hb
    exact ⟨d, hd, (completed_spec ha).2.2 b hb⟩

/-- **A call adds what its walk completes.** -/
theorem fingerprint (hD : OwnNumbers D) (hh : h.Taken t D calls) (hd : d ∈ D) :
    (h.fingerprint d).2.Taken t D (calls ++ [d]) where
  reached := hh.reached.fingerprint hd
  calls_mem := by
    intro x hx
    rcases List.mem_append.mp hx with hx | hx
    · exact hh.calls_mem x hx
    · rwa [List.mem_singleton.mp hx]
  holds := by
    have ht := hh.reached.table_eq
    subst ht
    rw [ContributionTable.completedBy_concat]
    exact Cache.holds_visit hD d h.cache (mem_nodes hd) (hh.reached.sound hD) hh.complete hh.holds

end Taken

/-! ### What is remembered -/

/-- **The extent of what a hasher remembers**, given its calls since it was last cleared. -/
structure Extent (t : ContributionTable) (D : Set Derivation) (calls : List Derivation)
    (h : Hasher) : Prop where
  /-- A number is remembered if it belongs to a node of a derivation whose call returned, or of a
  tree that was completed before a call broke. -/
  mem : ∀ id, id ∈ h.cache ↔ ∃ d ∈ calls, ∃ a, a.id = id ∧
    ((∃ f, t.fingerprint d = .ok f) ∧ Occurs a d ∨
      ∃ e path done, Breaks t e d path done ∧ ∃ b ∈ done, Occurs a b)
  /-- With a node, its children are remembered. -/
  closed : ∀ a ∈ nodes D, a.id ∈ h.cache → ∀ c ∈ a.children, c.id ∈ h.cache
  /-- A call that failed broke. -/
  breaks : ∀ d ∈ calls, ∀ e, t.fingerprint d = .error e → ∃ path done, Breaks t e d path done
  /-- The node at which a call broke is not remembered, nor are those above it on the path of the
  call. -/
  path : ∀ d ∈ calls, ∀ e path done, Breaks t e d path done → ∀ a ∈ path, a.id ∉ h.cache

theorem mem_completed_iff {a d : Derivation} : a ∈ t.completed d ↔
    (∃ f, t.fingerprint d = .ok f) ∧ Occurs a d ∨
      ∃ e path done, Breaks t e d path done ∧ ∃ b ∈ done, Occurs a b := by
  rcases hd : t.fingerprint d with e | f
  · obtain ⟨path, done, hbreaks⟩ := fingerprint_error_iff.mp hd
    constructor
    · exact fun ha => Or.inr ⟨e, path, done, hbreaks, (completed_of_breaks hbreaks).mp ha⟩
    · rintro (⟨⟨f, hf⟩, -⟩ | ⟨e, path, done, hbreaks, ha⟩)
      · cases hf
      · exact (completed_of_breaks hbreaks).mpr ha
  · rw [completed_of_ok d ⟨f, hd⟩]
    constructor
    · exact fun ha => Or.inl ⟨⟨f, rfl⟩, ha⟩
    · rintro (⟨-, ha⟩ | ⟨e, path, done, hbreaks, -⟩)
      · exact ha
      · cases hd.symm.trans hbreaks.fingerprint

namespace Taken

variable (hD : OwnNumbers D) (hh : h.Taken t D calls)
include hD hh

/-- **What a hasher remembers.** -/
theorem extent : h.Extent t D calls where
  mem id := by
    rw [hh.holds id]
    constructor
    · rintro ⟨a, ⟨d, hd, ha⟩, hid⟩
      exact ⟨d, hd, a, hid, mem_completed_iff.mp ha⟩
    · rintro ⟨d, hd, a, hid, ha⟩
      exact ⟨a, ⟨d, hd, mem_completed_iff.mpr ha⟩, hid⟩
  closed a ha hid c hc := by
    rw [hh.holds.id_mem hD hh.complete ha] at hid
    exact (hh.holds c.id).mpr ⟨c, hh.complete.closed a hid c (.inChild hc .root), rfl⟩
  breaks d _ e he := fingerprint_error_iff.mp he
  path d hd e path done hbreaks a ha hid := by
    have hnode : a ∈ nodes D := ⟨d, hh.calls_mem d hd, hbreaks.occurs_path a ha⟩
    obtain ⟨x, -, hx⟩ := (hh.holds.id_mem hD hh.complete hnode).mp hid
    obtain ⟨f, hf⟩ := (completed_spec hx).2.1
    cases (hbreaks.path_error a ha).symm.trans hf

/-- **A call that returns** raises the number of nodes by those of its derivation that were not
remembered. -/
theorem cached_fingerprint (hd : d ∈ D) {f : Fingerprint} (hf : t.fingerprint d = .ok f) :
    ((h.fingerprint d).2.cached : ℕ∞) = h.cached + {a | Occurs a d ∧ a.id ∉ h.cache}.encard := by
  have hadded : {id | id ∈ (h.fingerprint d).2.cache} =
      {id | id ∈ h.cache} ∪ Derivation.id '' {a | Occurs a d ∧ a.id ∉ h.cache} := by
    ext id
    have hafter := (hh.fingerprint hD hd).holds id
    rw [ContributionTable.completedBy_concat] at hafter
    rw [Set.mem_ofPred_eq, hafter, Set.mem_union, Set.mem_ofPred_eq, Set.mem_image]
    constructor
    · rintro ⟨a, ha | ha, rfl⟩
      · exact Or.inl ((hh.holds a.id).mpr ⟨a, ha, rfl⟩)
      · by_cases hid : a.id ∈ h.cache
        · exact Or.inl hid
        · exact Or.inr ⟨a, ⟨(completed_of_ok d ⟨f, hf⟩).mp ha, hid⟩, rfl⟩
    · rintro (hid | ⟨a, ⟨ha, -⟩, rfl⟩)
      · obtain ⟨a, ha, rfl⟩ := (hh.holds id).mp hid
        exact ⟨a, Or.inl ha, rfl⟩
      · exact ⟨a, Or.inr ((completed_of_ok d ⟨f, hf⟩).mpr ha), rfl⟩
  have hdisjoint : Disjoint {id | id ∈ h.cache}
      (Derivation.id '' {a | Occurs a d ∧ a.id ∉ h.cache}) := by
    rw [Set.disjoint_left]
    rintro id hid ⟨a, ⟨-, ha⟩, rfl⟩
    exact ha hid
  have hown : Set.InjOn Derivation.id {a | Occurs a d ∧ a.id ∉ h.cache} := by
    refine Set.InjOn.mono ?_ hD
    rintro a ⟨ha, -⟩
    exact ⟨d, hd, ha⟩
  rw [cached, cached, Cache.size_eq, Cache.size_eq, hadded, Set.encard_union_eq hdisjoint,
    hown.encard_image]

end Taken

end Hasher

end CategorialChart
