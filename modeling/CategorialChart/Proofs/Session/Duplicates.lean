import CategorialChart.Proofs.Fingerprint.Parity
import CategorialChart.Proofs.Session.Hashed

/-! # Duplicates

When a cell refuses an item as a duplicate. Derivations that resolve the same terms an odd number of
times have the same fingerprint, so of two such items the later is refused, however much happens
between the offers (`duplicate_of_odd_terms`). It is not enough that they resolve the same terms:
one may resolve a term twice that the other resolves once (`same_terms_not_duplicate`). -/

namespace CategorialChart

open CategorialChart.Derivation (OwnNumbers)

variable {κ σ : Type} [DecidableEq κ] [Ord κ] [LT σ] [DecidableLT σ] [Mul σ]

namespace Session

variable {table : ContributionTable} {limit : Nat} {beam : σ}

/-- An offer whose fingerprint can be taken is answered, and stands before the later ones. -/
theorem answered_offer {s : Session κ σ} (hu : s.Uniform ⟨.nBestHashed limit beam, { table }⟩)
    {place : Place} {c : Cell κ σ} (hc : s.cell? place = some (.ok c))
    {offers : List (κ × Item κ σ)} (hh : c.Hashed table limit beam offers) (key : κ)
    {x : Item κ σ} {f : Fingerprint} (hf : table.fingerprint x.derivation = .ok f)
    (as : List (Action κ σ)) :
    ∃ b rest, answered place (.offer place key x :: as)
      (s.plainRun (.offer place key x :: as)).1 = ((key, x), b) :: rest := by
  have hans : ∃ b c', c.answer (table.fingerprint x.derivation) key x = (.ok b, c') := by
    rcases hh.answer_cases key x with ⟨e, he, -⟩ | ⟨why, -, ha⟩ | ⟨g, -, -, ha⟩
    · cases hf.symm.trans he
    · exact ⟨_, _, ha⟩
    · exact ⟨_, _, ha⟩
  obtain ⟨b, c', ha⟩ := hans
  obtain ⟨hreply, -⟩ := plainOffer_here hu hc key x
  rw [ha] at hreply
  have hsome : Action.answered place (.offer place key x, .retained b) = some ((key, x), b) :=
    if_pos rfl
  refine ⟨b, answered place as ((s.plainAct (.offer place key x)).2.plainRun as).1, ?_⟩
  have hsplit := answered_append place [.offer place key x] as s
  rw [answered_singleton] at hsplit
  refine hsplit.trans ?_
  rw [plainAct, hreply]
  exact congrArg (fun o : Option _ => o.toList ++ _) hsome

/-- The last offer of a plain run, if an item with its fingerprint was offered before. -/
theorem plainRun_duplicate {as₁ as₂ : List (Action κ σ)} {place : Place} {key : κ}
    {x y : Item κ σ} {f : Fingerprint} (hx : table.fingerprint x.derivation = .ok f)
    (hy : table.fingerprint y.derivation = .ok f) {c₁ c₂ : Cell κ σ}
    (hc₁ : ((start (.nBestHashed limit beam) table).plainRun as₁).2.cell? place = some (.ok c₁))
    (hk₁ : withinBeam limit beam (c₁.entriesFor key) x = .keep)
    (hc₂ : ((start (.nBestHashed limit beam) table).plainRun
      (as₁ ++ .offer place key x :: as₂)).2.cell? place = some (.ok c₂))
    (hk₂ : withinBeam limit beam (c₂.entriesFor key) y = .keep) :
    ((start (.nBestHashed limit beam) table).plainRun
        ((as₁ ++ .offer place key x :: as₂) ++ [.offer place key y])).1.getLast? =
        some (.retained false) ∧
      ((start (.nBestHashed limit beam) table).plainRun
        ((as₁ ++ .offer place key x :: as₂) ++ [.offer place key y])).2.cell? place =
        some (.ok (c₂.refuse .duplicate)) := by
  have hu := uniform_start (κ := κ) (.nBestHashed limit beam) table
  have h₁ := (history_plainRun hc₁).hashed
  have h₂ := (history_plainRun hc₂).hashed
  -- the first item is among the offers in the beam that the cell has answered
  have hmem : x ∈ inBeam beam (under key ((answered place (as₁ ++ .offer place key x :: as₂)
      ((start (.nBestHashed limit beam) table).plainRun
        (as₁ ++ .offer place key x :: as₂)).1).map Prod.fst)) := by
    obtain ⟨b, rest, hrest⟩ := answered_offer (Uniform.plainRun rfl as₁ hu) hc₁ h₁ key hx as₂
    rw [h₁.entriesFor, withinBeam_survivors_eq_keep] at hk₁
    rw [answered_append, hrest, List.map_append, List.map_cons, under_append_cons]
    exact mem_inBeam hk₁.2 _
  obtain ⟨h3, h4⟩ := plainOffer_here (Uniform.plainRun rfl _ hu) hc₂ key y
  have hans := h₂.answer_duplicate hx hy hmem hk₂
  rw [plainRun_append]
  simp only [plainRun, plainAct]
  rw [h3, h4, List.getLast?_concat]
  simp only [hans]
  exact ⟨rfl, trivial⟩

/-- **The same odd terms make duplicates.** Two derivations that resolve the same terms an odd
number of times have the same fingerprint, whichever hashers take it. When items of both are offered
under one key of a cell, each with room left and in the beam, the second is refused as a
duplicate. -/
theorem duplicate_of_odd_terms {D : Set Derivation} (hD : OwnNumbers D) {h₁ h₂ : Hasher}
    (hr₁ : h₁.Reached table D) (hr₂ : h₂.Reached table D) {d₁ d₂ : Derivation} (hd₁ : d₁ ∈ D)
    (hd₂ : d₂ ∈ D) {f₁ f₂ : Fingerprint} (hf₁ : (h₁.fingerprint d₁).1 = .ok f₁)
    (hf₂ : (h₂.fingerprint d₂).1 = .ok f₂) (hodd : d₁.oddTerms = d₂.oddTerms) :
    f₁ = f₂ ∧
      ∀ (limit : Nat) (beam : σ) (as₁ as₂ : List (Action κ σ)) (place : Place) (key : κ)
        (x y : Item κ σ) (c₁ c₂ : Cell κ σ), x.derivation = d₁ → y.derivation = d₂ →
        OwnNumbers (Action.derivations
          ((as₁ ++ .offer place key x :: as₂) ++ [.offer place key y])) →
        ((start (.nBestHashed limit beam) table).run as₁).2.cell? place = some (.ok c₁) →
        withinBeam limit beam (c₁.entriesFor key) x = .keep →
        ((start (.nBestHashed limit beam) table).run
          (as₁ ++ .offer place key x :: as₂)).2.cell? place = some (.ok c₂) →
        withinBeam limit beam (c₂.entriesFor key) y = .keep →
          ((start (.nBestHashed limit beam) table).run
              ((as₁ ++ .offer place key x :: as₂) ++ [.offer place key y])).1.getLast? =
              some (.retained false) ∧
            ((start (.nBestHashed limit beam) table).run
              ((as₁ ++ .offer place key x :: as₂) ++ [.offer place key y])).2.cell? place =
              some (.ok (c₂.refuse .duplicate)) := by
  rw [hr₁.fingerprint_eq hD hd₁] at hf₁
  rw [hr₂.fingerprint_eq hD hd₂] at hf₂
  obtain rfl := ContributionTable.fingerprint_congr hodd hf₁ hf₂
  refine ⟨rfl, fun limit beam as₁ as₂ place key x y c₁ c₂ hx hy own hc₁ hk₁ hc₂ hk₂ => ?_⟩
  subst hx hy
  have own₂ := own.mono (Action.derivations_mono (List.subset_append_left _ _))
  have own₁ := own₂.mono (Action.derivations_mono (List.subset_append_left _ _))
  rw [cell?_run _ table own₁] at hc₁
  rw [cell?_run _ table own₂] at hc₂
  rw [cell?_run _ table own, (run_start _ table own).1]
  exact plainRun_duplicate hf₁ hf₂ hc₁ hk₁ hc₂ hk₂

end Session

open Session

namespace Forest

/-- Offers of two items to one cell, with a new sentence in between. -/
def offers (d e : Derivation) : List (Action Nat Nat) :=
  ([.makeCell 0] ++ .offer (.cell 0) 0 (item d 3) :: [.newSentence 0]) ++
    [.offer (.cell 0) 0 (item e 3)]

theorem own_offers {d e : Derivation}
    (h : {d, e} ⊆ ({paired, raised, twice, once} : Set Derivation)) :
    OwnNumbers (Action.derivations (offers d e)) :=
  own.mono fun a ha => h (by
    have ha' : a ∈ [d, e] := ha
    simpa using ha')

end Forest

open Forest

/-- A node, and the same node raised. -/
theorem Session.duplicate_of_odd_terms_forest :
    (2 : Fingerprint) = 2 ∧
      ((start (.nBestHashed 1 1) table).run (offers once raised)).1.getLast? =
        some (.retained false) := by
  have hown := own_offers (d := once) (e := raised) (by intro a; simp; tauto)
  have own₂ := hown.mono (Action.derivations_mono (List.subset_append_left _ _))
  have own₁ := own₂.mono (Action.derivations_mono (List.subset_append_left _ _))
  have hr : Hasher.Reached table {paired, raised, twice, once} { table := table } := .new
  have hf₁ := (hr.fingerprint_eq own (d := once) (by simp)).trans
    (show table.fingerprint once = .ok 2 by decide)
  have hf₂ := (hr.fingerprint_eq own (d := raised) (by simp)).trans
    (show table.fingerprint raised = .ok 2 by decide)
  obtain ⟨hf, h⟩ := duplicate_of_odd_terms (κ := Nat) (σ := Nat) own hr hr (by simp) (by simp)
    hf₁ hf₂ (by decide)
  have hc₁ := (cell?_run (.nBestHashed 1 1) table own₁ (.cell 0)).trans rfl
  have hc₂ := (cell?_run (.nBestHashed 1 1) table own₂ (.cell 0)).trans rfl
  exact ⟨hf, (h 1 1 _ _ _ _ _ _ _ _ rfl rfl hown hc₁ (by decide) hc₂ (by decide)).1⟩

/-- **The same terms need not make duplicates**: a term that is resolved twice cancels. With room
left and in the beam, both items are retained. -/
theorem Session.same_terms_not_duplicate :
    OwnNumbers (Action.derivations (offers once twice)) ∧
      once.terms.toFinset = twice.terms.toFinset ∧
      table.fingerprint once = .ok 2 ∧ table.fingerprint twice = .ok 0 ∧
      (∃ c, ((start (.nBestHashed 1 1) table).run (offers once twice).dropLast).2.cell? (.cell 0) =
        some (.ok c) ∧ withinBeam 1 1 (c.entriesFor 0) (item twice 3) = .keep) ∧
      ((start (.nBestHashed 1 1) table).run (offers once twice)).1 =
        [.made 0, .retained true, .done, .retained true] := by
  have hown := own_offers (d := once) (e := twice) (by intro a; simp; tauto)
  have own₂ := hown.mono (Action.derivations_mono (List.dropLast_subset _))
  have hc := (cell?_run (.nBestHashed 1 1) table own₂ (.cell 0)).trans rfl
  refine ⟨hown, by decide, by decide, by decide, ⟨_, hc, by decide⟩, ?_⟩
  rw [(run_start _ table hown).1]
  decide

end CategorialChart
