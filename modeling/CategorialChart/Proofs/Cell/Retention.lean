import CategorialChart.Proofs.Cell.Failure

/-! # What a cell retains

An offer that is declined leaves no trace but in the counters, and what a cell retains it keeps.

* `Cell.Shifted`: two cells that hold the same and whose counters differ by what came before. They
  answer alike and remain so (`Shifted.answer`), whatever is offered.
* `offer_declined_or_retained`: what is left of an offer that was declined, and what becomes of the
  entries when one is retained. -/

namespace CategorialChart

open CategorialChart.Derivation (OwnNumbers)

namespace Stats

theorem add_empty (s : Stats) : s + {} = s := rfl

theorem add_refused (s t : Stats) (why : Refusal) :
    (s + t).refused why = s + t.refused why := by
  cases why <;> rfl

theorem add_retained (s t : Stats) (replaced : Bool) :
    (s + t).retained replaced = s + t.retained replaced := by
  cases replaced <;> rfl

end Stats

namespace Cell

variable {κ σ : Type} {c c' : Cell κ σ} {s s' : Stats}

/-- The cells hold the same, and have counted the same since the counters were `s` and `s'`. -/
structure Shifted (s s' : Stats) (c c' : Cell κ σ) : Prop where
  policy : c.policy = c'.policy
  groups : c.groups = c'.groups
  stats : ∃ since, c.stats = s + since ∧ c'.stats = s' + since

namespace Shifted

theorem entries (h : Shifted s s' c c') : c.entries = c'.entries := by
  unfold Cell.entries
  rw [h.groups]

theorem size (h : Shifted s s' c c') : c.size = c'.size := by
  rw [size_eq_length, size_eq_length, h.entries]

theorem refuse (h : Shifted s s' c c') (why : Refusal) :
    Shifted s s' (c.refuse why) (c'.refuse why) where
  policy := h.policy
  groups := h.groups
  stats := by
    obtain ⟨since, h1, h2⟩ := h.stats
    refine ⟨since.refused why, ?_, ?_⟩
    · rw [← Stats.add_refused, ← h1]
      rfl
    · rw [← Stats.add_refused, ← h2]
      rfl

theorem retained (h : Shifted s s' c c') {gs gs' : List (Group κ σ)} (hgs : gs = gs')
    (replaced : Bool) :
    Shifted s s' { c with groups := gs, stats := c.stats.retained replaced }
      { c' with groups := gs', stats := c'.stats.retained replaced } where
  policy := h.policy
  groups := hgs
  stats := by
    obtain ⟨since, h1, h2⟩ := h.stats
    refine ⟨since.retained replaced, ?_, ?_⟩
    · rw [← Stats.add_retained, ← h1]
    · rw [← Stats.add_retained, ← h2]

variable [DecidableEq κ]

theorem entriesFor (h : Shifted s s' c c') (key : κ) : c.entriesFor key = c'.entriesFor key := by
  unfold Cell.entriesFor groupsFor
  rw [h.groups]

theorem seenFor (h : Shifted s s' c c') (key : κ) : c.seenFor key = c'.seenFor key := by
  unfold Cell.seenFor groupsFor
  rw [h.groups]

variable [Ord κ]

theorem groupsWith (h : Shifted s s' c c') (key : κ) : c.groupsWith key = c'.groupsWith key := by
  unfold Cell.groupsWith
  rw [h.groups, h.policy]

theorem withGroup (h : Shifted s s' c c') (key : κ) :
    Shifted s s' (c.withGroup key) (c'.withGroup key) where
  policy := h.policy
  groups := h.groupsWith key
  stats := h.stats

theorem keep (h : Shifted s s' c c') (key : κ) (item : Item κ σ) (f : Option Fingerprint) :
    Shifted s s' (c.keep key item f) (c'.keep key item f) := by
  unfold Cell.keep
  exact h.retained (by rw [h.policy, h.groups, h.groupsWith]) false

omit [Ord κ] in
theorem replace (h : Shifted s s' c c') (key : κ) (item : Item κ σ) :
    Shifted s s' (c.replace key item) (c'.replace key item) := by
  unfold Cell.replace
  exact h.retained (by rw [h.groups]) true

variable [LT σ] [DecidableLT σ] [Mul σ]

/-- **Cells that hold the same answer alike**, and hold the same afterwards. -/
theorem answer (h : Shifted s s' c c') (f : Except TermError Fingerprint) (key : κ)
    (item : Item κ σ) :
    (c.answer f key item).1 = (c'.answer f key item).1 ∧
      Shifted s s' (c.answer f key item).2 (c'.answer f key item).2 := by
  unfold Cell.answer
  rw [h.policy, h.entriesFor, h.seenFor]
  rcases c'.policy.judge (c'.entriesFor key) item with _ | _ | why <;> dsimp only
  · split
    · rcases f with e | f <;> dsimp only
      · exact ⟨rfl, h.withGroup key⟩
      · split
        · exact ⟨rfl, h.refuse .duplicate⟩
        · exact ⟨rfl, h.keep key item (some f)⟩
    · exact ⟨rfl, h.keep key item none⟩
  · exact ⟨rfl, h.replace key item⟩
  · exact ⟨rfl, h.refuse why⟩

variable {t : ContributionTable} {D : Set Derivation}

/-- So they do for offers in a row, whichever hashers in use take the fingerprints. -/
theorem offerAll (h : Shifted s s' c c') (hD : OwnNumbers D) {h₁ h₂ : Hasher}
    (hr₁ : h₁.Reached t D) (hr₂ : h₂.Reached t D) {later : List (κ × Item κ σ)}
    (hd : ∀ o ∈ later, o.2.derivation ∈ D) :
    (c.offerAll h₁ later).1 = (c'.offerAll h₂ later).1 ∧
      Shifted s s' (c.offerAll h₁ later).2.1 (c'.offerAll h₂ later).2.1 := by
  obtain ⟨h1, h2, -⟩ := offerAll_spec hD c hr₁ hd
  obtain ⟨h3, h4, -⟩ := offerAll_spec hD c' hr₂ hd
  rw [h1, h2, h3, h4]
  exact transcript_related (fun o _ _ _ h => h.answer _ o.1 o.2) h

end Shifted

theorem shifted_refuse (c : Cell κ σ) (why : Refusal) :
    Shifted (c.stats.refused why) c.stats (c.refuse why) c where
  policy := rfl
  groups := rfl
  stats := ⟨{}, (Stats.add_empty _).symm, (Stats.add_empty _).symm⟩

variable [DecidableEq κ] [Ord κ] [LT σ] [DecidableLT σ] [Mul σ] {t : ContributionTable}
  {D : Set Derivation} {policy : Policy σ} {past : List (κ × Item κ σ)}

theorem Reached.wellKept (hD : OwnNumbers D) (hc : c.Reached t D policy past) : c.WellKept := by
  induction hc with
  | new => exact wellKept_empty policy
  | @offer c past h key item _ hr hd ih =>
    rw [(offer_spec hD c hr key hd).2.1]
    exact ih.answer _ key item

/-- **A declined offer leaves no trace, and retained items persist.** If an offer is declined, the
cell shows what it showed, its key had a group, and its counters count one offer and one refusal for
a reason of the policy. Any later offers have the results, the entries and the increments of the
counters that they have without it. If an offer is retained, its item joins the entries, among which
the others keep their order, unless it takes the place of the only item of its key, which scored
less. -/
theorem offer_declined_or_retained (hD : OwnNumbers D) (hc : c.Reached t D policy past) {h : Hasher}
    (hr : h.Reached t D) (key : κ) {item : Item κ σ} (hitem : item.derivation ∈ D) :
    let c' := (c.offer h key item).2.1
    ((c.offer h key item).1 = .ok false →
      (c'.entries = c.entries ∧ c'.size = c.size ∧ ∀ k, c'.entriesFor k = c.entriesFor k) ∧
      (∃ why, policy.refuses why = true ∧ c'.stats = c.stats.refused why) ∧
      c.withGroup key = c ∧
      ∀ later : List (κ × Item κ σ), (∀ o ∈ later, o.2.derivation ∈ D) →
        ∀ h₁ h₂ : Hasher, h₁.Reached t D → h₂.Reached t D →
          let r' := c'.offerAll h₁ later
          let r := c.offerAll h₂ later
          r'.1 = r.1 ∧ r'.2.1.entries = r.2.1.entries ∧
            (∀ k, r'.2.1.entriesFor k = r.2.1.entriesFor k) ∧
            ∃ since, r'.2.1.stats = c'.stats + since ∧ r.2.1.stats = c.stats + since) ∧
    ((c.offer h key item).1 = .ok true →
      (c'.entries.Perm (item :: c.entries) ∨
        policy = .oneBestCky ∧ ∃ old rest, c.entriesFor key = [old] ∧
          old.insideScore < item.insideScore ∧ c.entries.Perm (old :: rest) ∧
          c'.entries.Perm (item :: rest)) ∧
      (policy ≠ .oneBest → policy ≠ .oneBestCky → c.entries.Sublist c'.entries)) := by
  intro c'
  have hp := hc.policy_eq hD
  obtain ⟨h1, h2, -⟩ := offer_spec hD c hr key hitem
  have hc' : c' = (c.answer (t.fingerprint item.derivation) key item).2 := h2
  rw [h1, hc', ← hp]
  rcases (hc.wellKept hD).answer_entries (t.fingerprint item.derivation) key item with
    ⟨why, hwhy, hkey, ha⟩ | ⟨e, ha⟩ | ⟨g, l, r, -, ha, hold, hnew⟩ |
      ⟨old, l, r, hcky, hlt, hfor, ha, hold, hnew⟩ <;> rw [ha]
  · refine ⟨fun _ => ?_, nofun⟩
    have hsame : Shifted (c.refuse why).stats c.stats (c.refuse why) c := shifted_refuse c why
    refine ⟨⟨hsame.entries, hsame.size, hsame.entriesFor⟩, ⟨why, hwhy, rfl⟩,
      withGroup_of_mem hkey, fun later hd h₁ h₂ hr₁ hr₂ => ?_⟩
    obtain ⟨h3, h4⟩ := hsame.offerAll hD hr₁ hr₂ hd
    exact ⟨h3, h4.entries, h4.entriesFor, h4.stats⟩
  · exact ⟨nofun, nofun⟩
  · refine ⟨nofun, fun _ => ⟨Or.inl ?_, fun _ _ => ?_⟩⟩
    · rw [hold, hnew]
      exact List.perm_middle
    · rw [hold, hnew]
      exact List.Sublist.append_left (List.sublist_cons_self item r) l
  · refine ⟨nofun, fun _ => ⟨Or.inr ⟨hcky, old, l ++ r, hfor, hlt, ?_, ?_⟩, ?_⟩⟩
    · rw [hold]
      exact List.perm_middle
    · rw [hnew]
      exact List.perm_middle
    · exact fun _ hne => absurd hcky hne

end Cell

open Forest in
/-- A duplicate is declined, and an item with another fingerprint is retained. -/
theorem Cell.offer_declined_or_retained_forest :
    ((begun.offer { table } 0 (item raised 3)).1 = .ok false ∧
      (begun.offer { table } 0 (item raised 3)).2.1.entries = begun.entries ∧
      ((begun.offer { table } 0 (item raised 3)).2.1.offerAll { table } later).1 =
        (begun.offerAll { table } later).1) ∧
    ((begun.offer { table } 0 (item paired 3)).1 = .ok true ∧
      begun.entries.Sublist (begun.offer { table } 0 (item paired 3)).2.1.entries) := by
  have hr : Hasher.Reached table trees { table } := .new
  have honce : (item once 3).derivation ∈ trees := by simp [item, trees]
  have hraised : (item raised 3).derivation ∈ trees := by simp [item, trees]
  have hpaired : (item paired 3).derivation ∈ trees := by simp [item, trees]
  have hlater : ∀ o ∈ later, o.2.derivation ∈ trees := by simp [later, item, trees]
  have hbegun : begun.Reached table trees (.nBestHashed 1 1) [(0, item once 3)] :=
    .offer .new hr honce
  have hplain := (offer_spec own_trees { policy := .nBestHashed 1 1 } hr 0 honce).2.1
  have hdeclined : (begun.offer { table } 0 (item raised 3)).1 = .ok false := by
    rw [(offer_spec own_trees begun hr 0 hraised).1, begun, hplain]
    decide
  have hretained : (begun.offer { table } 0 (item paired 3)).1 = .ok true := by
    rw [(offer_spec own_trees begun hr 0 hpaired).1, begun, hplain]
    decide
  obtain ⟨h1, -⟩ := offer_declined_or_retained own_trees hbegun hr 0 hraised
  obtain ⟨-, h2⟩ := offer_declined_or_retained own_trees hbegun hr 0 hpaired
  obtain ⟨⟨hentries, -⟩, -, -, hlast⟩ := h1 hdeclined
  obtain ⟨hresults, -⟩ := hlast later hlater { table } { table } hr hr
  exact ⟨⟨hdeclined, hentries, hresults⟩, hretained, (h2 hretained).2 (by simp) (by simp)⟩

end CategorialChart
