import CategorialChart.Proofs.Cell.Entries

/-! # What a failed offer leaves behind

An offer fails when the fingerprint of its item cannot be taken. By then its key has been seen, and
the hasher may remember nodes of the derivation. The cell shows none of this, and later offers do
not depend on it: `offers_after_failure` compares the cell with the one to which the offer was never
made. Only the order of the entries can tell the two apart, since the key of the failed offer stands
where it was first seen. -/

namespace CategorialChart

open CategorialChart.Derivation (OwnNumbers)

namespace Cell

variable {κ σ : Type} [DecidableEq κ] [Ord κ] [LT σ] [DecidableLT σ] [Mul σ] {c c' : Cell κ σ}

/-- A failed answer changes nothing but that the key has been seen. -/
theorem answer_of_error {f : Except TermError Fingerprint} {key : κ} {item : Item κ σ}
    {e : TermError} (h : (c.answer f key item).1 = .error e) :
    (c.answer f key item).2 = c.withGroup key := by
  rcases c.answer_cases f key item with ⟨why, ha⟩ | ha | ⟨e', ha⟩ | ⟨g, ha⟩ <;> rw [ha] at h ⊢ <;>
    cases h

variable {t : ContributionTable} {D : Set Derivation} {limit : Nat} {beam : σ}
  {past : List (κ × Item κ σ)}

/-- Offers to cells that are alike have the same results, whichever hashers in use take their
fingerprints. -/
theorem Alike.offerAll (hD : OwnNumbers D) (ha : Alike c c') (hp : c.policy.has .keyed = true)
    {h h' : Hasher} (hr : h.Reached t D) (hr' : h'.Reached t D) {later : List (κ × Item κ σ)}
    (hd : ∀ o ∈ later, o.2.derivation ∈ D) :
    (c.offerAll h later).1 = (c'.offerAll h' later).1 ∧
      Alike (c.offerAll h later).2.1 (c'.offerAll h' later).2.1 := by
  obtain ⟨h1, h2, -⟩ := offerAll_spec hD c hr hd
  obtain ⟨h3, h4, -⟩ := offerAll_spec hD c' hr' hd
  rw [h1, h2, h3, h4]
  have hstep : ∀ o ∈ later, ∀ c c' : Cell κ σ, (Alike c c' ∧ c.policy.has .keyed = true) →
      (c.answer (t.fingerprint o.2.derivation) o.1 o.2).1 =
          (c'.answer (t.fingerprint o.2.derivation) o.1 o.2).1 ∧
        Alike (c.answer (t.fingerprint o.2.derivation) o.1 o.2).2
            (c'.answer (t.fingerprint o.2.derivation) o.1 o.2).2 ∧
          (c.answer (t.fingerprint o.2.derivation) o.1 o.2).2.policy.has .keyed = true := by
    rintro o - c c' ⟨ha, hp⟩
    obtain ⟨h5, h6⟩ := ha.answer hp (t.fingerprint o.2.derivation) o.1 o.2
    exact ⟨h5, h6, by rw [policy_answer, hp]⟩
  obtain ⟨h5, h6, -⟩ := transcript_related hstep ⟨ha, hp⟩
  exact ⟨h5, h6⟩

/-- **What a failed offer leaves behind** is the place of its key. The cell shows what it showed, its
entries in the same order, and any later offers have the results that they have without the failed
one, whichever hashers in use take the fingerprints of either run. From then on the entries stand in
the order of the first offers of their keys, the failed offer being one, so that they stand in the
same order if the key had been offered before. -/
theorem offers_after_failure (hD : OwnNumbers D)
    (hc : c.Reached t D (.nBestHashed limit beam) past) {h : Hasher} (hr : h.Reached t D) {key : κ}
    {item : Item κ σ} (hitem : item.derivation ∈ D) {e : TermError}
    (hfail : (c.offer h key item).1 = .error e) :
    let c' := (c.offer h key item).2.1
    (c'.ShowsAs c ∧ c'.entries = c.entries) ∧ (c.offer h key item).2.2.Reached t D ∧
      ∀ later : List (κ × Item κ σ), (∀ o ∈ later, o.2.derivation ∈ D) →
        ∀ h₁ h₂ : Hasher, h₁.Reached t D → h₂.Reached t D →
          let r' := c'.offerAll h₁ later
          let r := c.offerAll h₂ later
          r'.1 = r.1 ∧ r'.2.1.ShowsAs r.2.1 ∧
            r'.2.1.entries = ((past ++ (key, item) :: later).map Prod.fst).eraseDups.flatMap
              r'.2.1.entriesFor ∧
            r.2.1.entries = ((past ++ later).map Prod.fst).eraseDups.flatMap r.2.1.entriesFor ∧
            (key ∈ c.groups.map Group.key → r'.2.1.entries = r.2.1.entries) := by
  intro c'
  have hp : (Policy.nBestHashed limit beam).has .keyed = true := rfl
  have ho : (Policy.nBestHashed limit beam).has .orderedKeys = false := rfl
  obtain ⟨h1, h2, h3⟩ := offer_spec hD c hr key hitem
  have hc' : c' = c.withGroup key := h2.trans (answer_of_error (h1.symm.trans hfail))
  have halike : Alike c' c := by
    rw [hc']
    exact alike_withGroup (hc.keyed hD hp) key
  refine ⟨⟨halike.showsAs, ?_⟩, h3, fun later hd h₁ h₂ hr₁ hr₂ => ?_⟩
  · rw [hc', entries_withGroup]
  intro r' r
  have hreached' : c'.Reached t D (.nBestHashed limit beam) (past ++ [(key, item)]) :=
    hc.offer hr hitem
  have hkeyed : c'.policy.has .keyed = true := by
    rw [hreached'.policy_eq hD]
    exact hp
  obtain ⟨h4, h5⟩ := halike.offerAll hD hkeyed hr₁ hr₂ hd
  have horder := (hc.offerAll hD hr₂ hd).entries_eq hD hp ho
  have horder' := (hreached'.offerAll hD hr₁ hd).entries_eq hD hp ho
  rw [List.append_assoc, List.singleton_append] at horder'
  refine ⟨h4, h5.showsAs, horder', horder, fun hkey => ?_⟩
  -- where the key has its group, the failed offer has left nothing at all
  have hsame : c' = c := hc'.trans (withGroup_of_mem hkey)
  have h6 := (offerAll_spec hD c' hr₁ hd).2.1
  have h7 := (offerAll_spec hD c hr₂ hd).2.1
  rw [hsame, ← h7] at h6
  show (c'.offerAll h₁ later).2.1.entries = r.2.1.entries
  rw [hsame, h6]

end Cell

namespace Forest

/-- A node that resolves a dependency for which the table has no word. -/
def stray : Derivation := ⟨4, phrase, [], some [⟨⟨phrase, 1⟩, 0, [1]⟩]⟩

/-- Its fingerprint fails after that of the first node below it. -/
def broken : Derivation := ⟨5, phrase, [once, stray], none⟩

/-- The small forest with both. -/
def trees : Set Derivation := {broken, stray, paired, raised, twice, once}

theorem own_trees : OwnNumbers trees := by
  have h1 : NodeSupply.Numbers ⟨5⟩ {stray, paired, raised, twice, once} :=
    numbers.node phrase [] (some [⟨⟨phrase, 1⟩, 0, [1]⟩]) (by simp)
  have hchildren : ∀ c ∈ [once, stray],
      c ∈ Derivation.nodes {stray, paired, raised, twice, once} := by
    intro c hc
    refine Derivation.mem_nodes ?_
    rcases List.mem_pair.mp hc with rfl | rfl <;> simp
  exact (h1.node phrase [once, stray] none hchildren).own

/-- A cell that has answered one offer. -/
def begun : Cell Nat Nat :=
  (Cell.offer { policy := .nBestHashed 1 1 } { table } 0 (item once 3)).2.1

/-- Offers under a new key, and under that of an offer that has failed. -/
def later : List (Nat × Item Nat Nat) := [(2, item twice 3), (1, item raised 3)]

end Forest

open Forest in
/-- The key of a failed offer stands before one that is new after it. -/
theorem Cell.offers_after_failure_forest :
    (begun.offer { table } 1 (item broken 3)).1 = .error (.noSlab ⟨phrase, 1⟩) ∧
      ((begun.offer { table } 1 (item broken 3)).2.1.offerAll { table } later).2.1.entries =
        [item once 3, item raised 3, item twice 3] ∧
      (begun.offerAll { table } later).2.1.entries =
        [item once 3, item twice 3, item raised 3] := by
  have hr : Hasher.Reached table trees { table } := .new
  have honce : (item once 3).derivation ∈ trees := by simp [item, trees]
  have hbroken : (item broken 3).derivation ∈ trees := by simp [item, trees]
  have hlater : ∀ o ∈ later, o.2.derivation ∈ trees := by simp [later, item, trees]
  have hbegun : begun.Reached table trees (.nBestHashed 1 1) [(0, item once 3)] :=
    .offer .new hr honce
  have hplain := (offer_spec own_trees { policy := .nBestHashed 1 1 } hr 0 honce).2.1
  have hfail : (begun.offer { table } 1 (item broken 3)).1 = .error (.noSlab ⟨phrase, 1⟩) := by
    rw [(offer_spec own_trees begun hr 1 hbroken).1, begun, hplain]
    decide
  obtain ⟨-, -, h⟩ := offers_after_failure own_trees hbegun hr hbroken hfail
  obtain ⟨-, hshow, horder', horder, -⟩ := h later hlater { table } { table } hr hr
  have hentries : (begun.offerAll { table } later).2.1.entriesFor =
      (answerAll table (Cell.answer { policy := .nBestHashed 1 1 } (table.fingerprint once) 0
        (item once 3)).2 later).2.entriesFor := by
    rw [(offerAll_spec own_trees begun hr hlater).2.1, begun, hplain]
    rfl
  rw [horder', horder, funext hshow.entriesFor, hentries]
  exact ⟨hfail, rfl, rfl⟩

end CategorialChart
