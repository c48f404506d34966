import CategorialChart.Proofs.Cell.Held

/-! # Cells that take fingerprints

A cell with the policy `nBestHashed` holds, under each key, the survivors of the items offered
under it, where an item repeats another if the plain walk gives both the same fingerprint. The cell
itself compares with the fingerprints that it has collected, so the invariant `Cell.Hashed` ties
three things to the offers: the items, the collected fingerprints and the counters.

* `Hashed.answer_cases`: what a cell answers to a further offer is its outcome, unless its
  fingerprint is asked for and cannot be taken.
* `Hashed.answer`: the invariant after the answer, whatever it is.
-/

namespace CategorialChart

/-- The plain walk gives the two items the same fingerprint. -/
def ContributionTable.same {κ σ : Type} (t : ContributionTable) (x y : Item κ σ) : Bool :=
  t.fingerprint x.derivation = t.fingerprint y.derivation

theorem ContributionTable.same_iff {κ σ : Type} {t : ContributionTable} {x y : Item κ σ} :
    t.same x y = true ↔ t.fingerprint x.derivation = t.fingerprint y.derivation :=
  decide_eq_true_iff

theorem ContributionTable.same_trans {κ σ : Type} (t : ContributionTable) (x y z : Item κ σ)
    (hxy : t.same x y = true) (hyz : t.same y z = true) : t.same x z = true := by
  rw [ContributionTable.same_iff] at hxy hyz ⊢
  exact hxy.trans hyz

namespace Cell

variable {κ σ : Type} [DecidableEq κ] [LT σ] [DecidableLT σ] [Mul σ]

/-- **The invariant**: the cell is what the offers that it has answered have made of it. -/
structure Hashed (t : ContributionTable) (limit : Nat) (beam : σ) (c : Cell κ σ)
    (offers : List (κ × Item κ σ)) : Prop where
  policy : c.policy = .nBestHashed limit beam
  keyed : c.Keyed
  items : ∀ k, (c.group k).items = survivors t.same limit beam (under k offers)
  seen : ∀ k, (c.group k).seen.map Except.ok =
    (c.group k).items.map fun x => t.fingerprint x.derivation
  stats : c.stats = tally (outcomes t.same limit beam offers)

theorem hashed_empty (t : ContributionTable) (limit : Nat) (beam : σ) :
    ({ policy := .nBestHashed limit beam } : Cell κ σ).Hashed t limit beam [] where
  policy := rfl
  keyed := keyed_empty _
  items _ := rfl
  seen _ := rfl
  stats := rfl

variable {t : ContributionTable} {limit : Nat} {beam : σ} {c : Cell κ σ}
  {offers : List (κ × Item κ σ)}

namespace Hashed

theorem holds (hc : c.Hashed t limit beam offers) : c.Holds t.same limit beam offers where
  keyed := hc.keyed
  items := hc.items
  stats := hc.stats

theorem entriesFor (hc : c.Hashed t limit beam offers) (k : κ) :
    c.entriesFor k = survivors t.same limit beam (under k offers) :=
  hc.holds.entriesFor k

/-- A fingerprint has been collected under a key if it is that of a survivor. -/
theorem mem_seenFor (hc : c.Hashed t limit beam offers) (key : κ) {item : Item κ σ}
    {f : Fingerprint} (hf : t.fingerprint item.derivation = .ok f) :
    f ∈ c.seenFor key ↔
      (survivors t.same limit beam (under key offers)).any (t.same item) = true := by
  have hmap : f ∈ c.seenFor key ↔
      (.ok f : Except TermError Fingerprint) ∈ (c.group key).seen.map Except.ok := by
    rw [seenFor_eq hc.keyed, List.mem_map]
    constructor
    · intro h
      exact ⟨f, h, rfl⟩
    · rintro ⟨g, hg, hgf⟩
      cases hgf
      exact hg
  rw [hmap, hc.seen, hc.items, List.mem_map, List.any_eq_true]
  refine exists_congr fun y => and_congr_right fun _ => ?_
  rw [ContributionTable.same_iff, hf, eq_comm]

theorem refuse (hc : c.Hashed t limit beam offers) {key : κ} {item : Item κ σ} {why : Refusal}
    (ho : outcome t.same limit beam (under key offers) item = some why) :
    (c.refuse why).Hashed t limit beam (offers ++ [(key, item)]) := by
  obtain ⟨hkeyed, hitems, hstats⟩ := hc.holds.refuse t.same_trans ho
  exact ⟨hc.policy, hkeyed, hitems, hc.seen, hstats⟩

variable [Ord κ]

theorem withGroup (hc : c.Hashed t limit beam offers) (key : κ) :
    (c.withGroup key).Hashed t limit beam offers := by
  obtain ⟨hkeyed, hitems, hstats⟩ := hc.holds.withGroup key
  refine ⟨hc.policy, hkeyed, hitems, fun k => ?_, hstats⟩
  rw [group_withGroup, hc.seen]

theorem keep (hc : c.Hashed t limit beam offers) {key : κ} {item : Item κ σ} {f : Fingerprint}
    (hf : t.fingerprint item.derivation = .ok f)
    (ho : outcome t.same limit beam (under key offers) item = none) :
    (c.keep key item (some f)).Hashed t limit beam (offers ++ [(key, item)]) := by
  have hp : c.policy.has .keyed = true := by rw [hc.policy]; rfl
  obtain ⟨hkeyed, hitems, hstats⟩ := hc.holds.keep t.same_trans hp ho (some f)
  refine ⟨hc.policy, hkeyed, hitems, fun k => ?_, hstats⟩
  rw [group_keep hc.keyed hp]
  by_cases hk : k = key
  · subst hk
    rw [if_pos rfl, Group.push, List.map_append, List.map_append, hc.seen, List.map_singleton, hf]
    rfl
  · rw [if_neg hk, hc.seen]

/-- **The answer to an offer is its outcome**, unless the fingerprint is needed and missing. -/
theorem answer_cases (hc : c.Hashed t limit beam offers) (key : κ) (item : Item κ σ) :
    (∃ e, t.fingerprint item.derivation = .error e ∧
        c.answer (t.fingerprint item.derivation) key item = (.error e, c.withGroup key)) ∨
      (∃ why, outcome t.same limit beam (under key offers) item = some why ∧
        c.answer (t.fingerprint item.derivation) key item = (.ok false, c.refuse why)) ∨
      ∃ f, t.fingerprint item.derivation = .ok f ∧
        outcome t.same limit beam (under key offers) item = none ∧
        c.answer (t.fingerprint item.derivation) key item =
          (.ok true, c.keep key item (some f)) := by
  have hj : c.policy.judge (c.entriesFor key) item =
      withinBeam limit beam (survivors t.same limit beam (under key offers)) item := by
    rw [hc.policy, hc.entriesFor]
    rfl
  have hp : c.policy.has .structuralDedup = true := by rw [hc.policy]; rfl
  rw [withinBeam_survivors] at hj
  unfold Cell.answer outcome
  rw [hj]
  by_cases hcount : limit < (survivors t.same limit beam (under key offers)).length
  · exact Or.inr (Or.inl ⟨.count, by simp [hcount]⟩)
  by_cases hbeam : belowBeam beam (under key offers) item = true
  · exact Or.inr (Or.inl ⟨.beam, by simp [hcount, hbeam]⟩)
  simp only [if_neg hcount, if_neg hbeam, if_pos hp]
  rcases hf : t.fingerprint item.derivation with e | f
  · exact Or.inl ⟨e, rfl, rfl⟩
  -- with room left, what repeats anything in the beam repeats something held
  have hseen := hc.mem_seenFor key hf
  rw [any_survivors t.same_trans (Nat.not_lt.mp hcount)] at hseen
  by_cases hdup : (inBeam beam (under key offers)).any (t.same item) = true
  · exact Or.inr (Or.inl ⟨.duplicate, by simp [hdup], by simp [hseen.mpr hdup]⟩)
  · exact Or.inr (Or.inr ⟨f, rfl, by simp [hdup], by simp [mt hseen.mp hdup]⟩)

/-- **An answer keeps the invariant**: an offer that is answered is one offer more. -/
theorem answer (hc : c.Hashed t limit beam offers) {key : κ} {item : Item κ σ} {b : Bool}
    {c' : Cell κ σ} (h : c.answer (t.fingerprint item.derivation) key item = (.ok b, c')) :
    c'.Hashed t limit beam (offers ++ [(key, item)]) ∧
      b = (outcome t.same limit beam (under key offers) item).isNone := by
  rcases hc.answer_cases key item with ⟨e, -, ha⟩ | ⟨why, ho, ha⟩ | ⟨f, hf, ho, ha⟩ <;> rw [ha] at h
  · cases h
  · cases h
    exact ⟨hc.refuse ho, by rw [ho]; rfl⟩
  · cases h
    exact ⟨hc.keep hf ho, by rw [ho]; rfl⟩

/-- An offer that fails leaves everything as it was, up to an empty group. -/
theorem answer_error (hc : c.Hashed t limit beam offers) {key : κ} {item : Item κ σ}
    {e : TermError} {c' : Cell κ σ}
    (h : c.answer (t.fingerprint item.derivation) key item = (.error e, c')) :
    c'.Hashed t limit beam offers := by
  rcases hc.answer_cases key item with ⟨e', -, ha⟩ | ⟨why, -, ha⟩ | ⟨f, -, -, ha⟩ <;> rw [ha] at h
  · cases h
    exact hc.withGroup key
  · cases h
  · cases h

/-- With room left, an item in the beam is refused if an item in the beam before it has the same
fingerprint. -/
theorem answer_duplicate (hc : c.Hashed t limit beam offers) {key : κ} {x y : Item κ σ}
    {f : Fingerprint} (hx : t.fingerprint x.derivation = .ok f)
    (hy : t.fingerprint y.derivation = .ok f) (hmem : x ∈ inBeam beam (under key offers))
    (hkeep : withinBeam limit beam (c.entriesFor key) y = .keep) :
    c.answer (t.fingerprint y.derivation) key y = (.ok false, c.refuse .duplicate) := by
  have hdup : (inBeam beam (under key offers)).any (t.same y) = true :=
    List.any_eq_true.mpr ⟨x, hmem, ContributionTable.same_iff.mpr (hy.trans hx.symm)⟩
  have hout : outcome t.same limit beam (under key offers) y = some .duplicate := by
    rw [hc.entriesFor, withinBeam_survivors_eq_keep] at hkeep
    obtain ⟨hcount, hbeam⟩ := hkeep
    rw [outcome, if_neg (Nat.not_lt.mpr hcount), hbeam, if_neg Bool.false_ne_true, if_pos hdup]
  rcases hc.answer_cases key y with ⟨e, he, -⟩ | ⟨why, ho, ha⟩ | ⟨g, -, ho, -⟩
  · cases hy.symm.trans he
  · cases hout.symm.trans ho
    exact ha
  · cases hout.symm.trans ho

end Hashed

end Cell

end CategorialChart
