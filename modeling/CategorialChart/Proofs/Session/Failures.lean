import CategorialChart.Proofs.Cell.Failure
import CategorialChart.Proofs.Fingerprint.Coverage
import CategorialChart.Proofs.Session.Reached

/-! # What can fail in a session

Whether the fingerprint of a derivation can be taken does not depend on what the session has done
before, nor on what its workspaces remember: the categories of the grammar and the greatest length
of a sentence decide it (`failures_of_run`). So offers whose words lie in a sentence that was begun
do not fail, and where no fingerprints are taken no offer fails.

`Session.Ran` says what any run leaves behind, `Ran.act_fingerprint` and `Ran.act_offer` what such a
session replies. For the reply to an offer it is enough that each cell belongs to a workspace
(`Placed.act_offer`). -/

namespace CategorialChart

open CategorialChart.Derivation (OwnNumbers)

variable {κ σ : Type}

namespace Workspace

theorem startSentence_fst {w : Workspace σ} (hp : w.policy.has .structuralDedup = true)
    (length : Nat) : (w.startSentence length).1 =
      if length ≤ w.hasher.table.maxLength then .ok ()
      else .error (.sentenceTooLong length w.hasher.table.maxLength) := by
  have hp' : w.newSentence.policy.has .structuralDedup = true := hp
  have hmax : w.newSentence.maxSentenceLength = w.hasher.table.maxLength := rfl
  unfold startSentence
  by_cases h : length ≤ w.hasher.table.maxLength
  · simp [hmax, h, Nat.not_lt.mpr h]
  · simp [hp', hmax, h, Nat.lt_of_not_le h]

end Workspace

namespace Session

variable {t : ContributionTable} {D : Set Derivation} {policy : Policy σ} {s : Session κ σ}

/-! ### What a run leaves behind -/

/-- All workspaces and cells have one policy, and the workspaces have hashers of one table in
use. -/
structure Ran (t : ContributionTable) (D : Set Derivation) (policy : Policy σ)
    (s : Session κ σ) : Prop where
  follows : s.Follows policy
  inUse : s.InUse t D

theorem ran_start (policy : Policy σ) (t : ContributionTable) :
    (start policy t : Session κ σ).Ran t D policy where
  follows := follows_start policy t
  inUse w hw := by
    rw [List.mem_singleton.mp hw]
    exact .new

theorem Ran.workspace (hs : s.Ran t D policy) {n : Nat} {w : Workspace σ}
    (hw : s.workspaces[n]? = some w) : w.policy = policy ∧ w.hasher.Reached t D :=
  have hmem := List.mem_of_getElem? hw
  ⟨hs.follows.workspace_policy w hmem, hs.inUse w hmem⟩

section Offers
variable [DecidableEq κ] [Ord κ] [LT σ] [DecidableLT σ] [Mul σ]

theorem run_append (bs : List (Action κ σ)) : ∀ (as : List (Action κ σ)) (s : Session κ σ),
    (s.run (as ++ bs)).2 = ((s.run as).2.run bs).2
  | [], _ => rfl
  | a :: as, s => by
    rw [List.cons_append, run, run]
    exact run_append bs as (s.act a).2

/-- **An offer to a cell** is answered by the cell, with the fingerprint that the hasher of a
workspace takes. -/
theorem Placed.act_offer (hs : s.Placed) {place : Place} {c : Cell κ σ}
    (hc : s.cell? place = some (.ok c)) (key : κ) (item : Item κ σ) :
    ∃ w ∈ s.workspaces, (s.act (.offer place key item)).1 =
      .of .retained ((c.answer (w.hasher.fingerprint item.derivation).1 key item).1.mapError
        .fingerprint) := by
  rw [act]
  cases place with
  | cell n =>
    obtain ⟨o, ho, hoc⟩ := Option.map_eq_some_iff.mp hc
    cases hoc
    have hlt := hs.cells o (List.mem_of_getElem? ho)
    refine ⟨_, List.getElem_mem hlt, ?_⟩
    simp [offer, cellInUse?, ho, hlt, Cell.offer_eq]
  | span n span =>
    obtain ⟨o, ho, hoc⟩ := Option.map_eq_some_iff.mp hc
    have hlt := hs.charts o (List.mem_of_getElem? ho)
    refine ⟨_, List.getElem_mem hlt, ?_⟩
    simp [offer, chartInUse?, ho, hlt, Chart.offer_eq, (Chart.answer_of_ok hoc _ key item).1]

/-- An offer does not fail if the fingerprint of its item can be taken where the policy takes it. -/
theorem Follows.retained (hs : s.Follows policy) {place : Place} {c : Cell κ σ}
    (hc : s.cell? place = some (.ok c)) (key : κ) {item : Item κ σ}
    (h : policy.has .structuralDedup = true → ∀ w ∈ s.workspaces,
      ∃ f, (w.hasher.fingerprint item.derivation).1 = .ok f) :
    ∃ b, (s.act (.offer place key item)).1 = .retained b := by
  obtain ⟨w, hw, hreply⟩ := hs.act_offer hc key item
  rw [← hs.policy_eq hc] at h
  obtain ⟨b, hb⟩ := Cell.answer_ok (fun hp => h hp w hw) key item
  refine ⟨b, ?_⟩
  rw [hreply, hb]
  rfl

namespace Ran

theorem act (hs : s.Ran t D policy) {a : Action κ σ} (ha : ∀ d ∈ a.derivation?, d ∈ D) :
    (s.act a).2.Ran t D policy :=
  ⟨hs.follows.step (s.step_act a), hs.inUse.step (s.step_act a) ha⟩

theorem run (hs : s.Ran t D policy) {as : List (Action κ σ)} (has : Action.derivations as ⊆ D) :
    (s.run as).2.Ran t D policy :=
  ⟨follows_run as hs.follows, hasher_run as hs.inUse has⟩

theorem act_fingerprint (hD : OwnNumbers D) (hs : s.Ran t D policy)
    (hp : policy.has .structuralDedup = true) {n : Nat} (hn : n < s.workspaces.length)
    {d : Derivation} (hd : d ∈ D) :
    (s.act (.fingerprint n d)).1 =
      .of (fun f => .fingerprint (some f)) ((t.fingerprint d).mapError .fingerprint) := by
  have hw := List.getElem?_eq_getElem hn
  obtain ⟨h1, h2⟩ := hs.workspace hw
  rw [← h1] at hp
  rw [Session.act, hw]
  unfold Workspace.fingerprint
  simp only [if_pos hp, h2.fingerprint_eq hD hd]
  rcases t.fingerprint d with e | f <;> rfl

theorem act_offer (hs : s.Ran t D policy) {place : Place} {c : Cell κ σ}
    (hc : s.cell? place = some (.ok c)) (key : κ) (item : Item κ σ) :
    ∃ h : Hasher, h.Reached t D ∧ (s.act (.offer place key item)).1 =
      .of .retained ((c.answer (h.fingerprint item.derivation).1 key item).1.mapError
        .fingerprint) := by
  obtain ⟨w, hw, hreply⟩ := hs.follows.act_offer hc key item
  exact ⟨w.hasher, hs.inUse w hw, hreply⟩

/-! ### The table of a grammar -/

variable {stream : Nat → UInt64} {maxLength : Nat} {categories : List Category}

theorem fingerprint_build (hD : OwnNumbers D)
    (hs : s.Ran (.build stream maxLength categories) D policy)
    (hp : policy.has .structuralDedup = true) {n : Nat} (hn : n < s.workspaces.length)
    {d : Derivation} (hd : d ∈ D) :
    ((∃ f, (s.act (.fingerprint n d)).1 = .fingerprint (some f)) ↔
        d.Covered categories maxLength) ∧
      (¬ d.Covered categories maxLength →
        ∃ e, (s.act (.fingerprint n d)).1 = .failed (.fingerprint e) ∧
          d.Uncovered categories maxLength e) := by
  obtain ⟨hok, herror⟩ :=
    @ContributionTable.fingerprint_build stream maxLength categories d
  rw [hs.act_fingerprint hD hp hn hd, ← hok]
  rcases hf : (ContributionTable.build stream maxLength categories).fingerprint d with e | f
  · refine ⟨by simp [Except.mapError, Reply.of], fun _ => ⟨e, rfl, herror e hf⟩⟩
  · refine ⟨by simp [Except.mapError, Reply.of], fun h => absurd ⟨f, rfl⟩ h⟩

theorem retained_build (hD : OwnNumbers D)
    (hs : s.Ran (.build stream maxLength categories) D policy) {place : Place} {c : Cell κ σ}
    (hc : s.cell? place = some (.ok c)) (key : κ) {item : Item κ σ} (hd : item.derivation ∈ D)
    (h : item.derivation.Covered categories maxLength) :
    ∃ b, (s.act (.offer place key item)).1 = .retained b := by
  refine hs.follows.retained hc key fun _ w hw => ?_
  rw [(hs.inUse w hw).fingerprint_eq hD hd]
  exact (ContributionTable.fingerprint_build _).1.mpr h

theorem startSentence_build (hs : s.Ran (.build stream maxLength categories) D policy)
    (hp : policy.has .structuralDedup = true) (n length : Nat) :
    (s.act (.startSentence n length)).1 = .done ↔
      n < s.workspaces.length ∧ length ≤ maxLength := by
  rw [Session.act]
  rcases hw : s.workspaces[n]? with _ | w
  · have hn : ¬ n < s.workspaces.length := by simpa using hw
    simp [hn]
  have hn : n < s.workspaces.length := (List.getElem?_eq_some_iff.mp hw).1
  obtain ⟨h1, h2⟩ := hs.workspace hw
  simp only [Workspace.startSentence_fst (by rw [h1, hp]), h2.table_eq,
    ContributionTable.maxLength_build]
  by_cases h : length ≤ maxLength <;> simp [hn, h, Reply.of]

end Ran

/-! ### Failures -/

/-- **What can fail in a session.** With a policy that takes fingerprints, the fingerprint of a
derivation can be taken exactly if its dependencies between different words fill slots of the
categories of the grammar and name positions below the greatest length; else it fails with the error
of such a dependency. After a sentence was begun, whatever is done then, no offer fails whose item
names positions of the sentence only. With a policy that takes no fingerprints no offer fails,
whatever the numbers of the nodes. All this holds for any stream of random words. -/
theorem failures_of_run [LE σ] [DecidableLE σ] [OfNat σ 0] [OfNat σ 1]
    {words : UInt64 → Nat → UInt64} {options : ChartOptions σ} {entropy : UInt64}
    {categories : List Category} {w : Workspace σ}
    (hw : Workspace.ofGrammar words options entropy categories = .ok w)
    (as : List (Action κ σ)) :
    let s := (({ workspaces := [w] } : Session κ σ).run as).2
    (options.policy.has .structuralDedup = true →
      ∀ D : Set Derivation, OwnNumbers D → Action.derivations as ⊆ D →
      (∀ n < s.workspaces.length, ∀ d ∈ D,
        ((∃ f, (s.act (.fingerprint n d)).1 = .fingerprint (some f)) ↔
            d.Covered categories options.maxSentenceLength) ∧
          (¬ d.Covered categories options.maxSentenceLength →
            ∃ e, (s.act (.fingerprint n d)).1 = .failed (.fingerprint e) ∧
              d.Uncovered categories options.maxSentenceLength e)) ∧
      ∀ n length later, (s.act (.startSentence n length)).1 = .done →
        Action.derivations later ⊆ D →
        let s' := ((s.act (.startSentence n length)).2.run later).2
        ∀ place c, s'.cell? place = some (.ok c) → ∀ key item, item.derivation ∈ D →
          item.derivation.Covered categories length →
            ∃ b, (s'.act (.offer place key item)).1 = .retained b) ∧
    (options.policy.has .structuralDedup = false →
      ∀ place c, s.cell? place = some (.ok c) → ∀ key item,
        ∃ b, (s.act (.offer place key item)).1 = .retained b) := by
  obtain ⟨-, rfl⟩ := Workspace.ofGrammar_eq_ok.mp hw
  intro s
  refine ⟨fun hp D hD has => ?_, fun hp place c hc key item => ?_⟩
  · have hs : s.Ran (.build (words (options.seed.getD entropy)) options.maxSentenceLength
        (if options.policy.has .structuralDedup then categories else [])) D options.policy :=
      (ran_start _ _).run has
    rw [if_pos hp] at hs
    refine ⟨fun n hn d hd => hs.fingerprint_build hD hp hn hd, ?_⟩
    intro n length later hdone hlater s' place c hc key item hd hcov
    have hlength : length ≤ options.maxSentenceLength :=
      ((hs.startSentence_build hp n length).mp hdone).2
    have hs' := (hs.act (a := .startSentence n length) nofun).run hlater
    exact hs'.retained_build hD hc key hd (hcov.mono hlength)
  · have hs : s.Follows options.policy := follows_run as (follows_start options.policy _)
    refine hs.retained hc key fun hp' => ?_
    rw [hp] at hp'
    cases hp'

end Offers

end Session

namespace Forest

/-- A cell, and a fingerprint that fails. -/
def failing : List (Action Nat Nat) := [.makeCell 0, .fingerprint 0 broken]

/-- The same, then two sentences. -/
def resumed : List (Action Nat Nat) := failing ++ [.startSentence 0 2, .newSentence 0]

theorem resumed_subset : Action.derivations resumed ⊆ trees := by
  intro d hd
  have hd' : d ∈ [broken] := hd
  simp_all [trees]

theorem covered_paired : paired.Covered [determiner] 2 := by
  rw [Derivation.covered_iff]
  have hterms : paired.terms = [⟨⟨determiner, 1⟩, 0, 1⟩, ⟨⟨determiner, 1⟩, 0, 1⟩] := rfl
  rw [hterms]
  unfold Slot.Listed
  decide

theorem not_covered_broken : ¬ broken.Covered [determiner] 4 := by
  rw [Derivation.covered_iff]
  have hterms : broken.terms = [⟨⟨determiner, 1⟩, 0, 1⟩, ⟨⟨phrase, 1⟩, 0, 1⟩] := rfl
  rw [hterms]
  unfold Slot.Listed
  decide

end Forest

open Forest in
/-- A workspace for the category of the small forest: what stands above a slot of no category has no
fingerprint, and what lies in a sentence of two words can be offered. -/
theorem Session.failures_of_run_forest :
    ∃ w : Workspace Nat, Workspace.new ⟨.nBestHashed 1 1, 4, none⟩ 0 [determiner] = .ok w ∧
      let s := (({ workspaces := [w] } : Session Nat Nat).run failing).2
      (∃ e, (s.act (.fingerprint 0 broken)).1 = .failed (.fingerprint e)) ∧
      (s.act (.startSentence 0 2)).1 = .done ∧
      ∃ b, (((s.act (.startSentence 0 2)).2.run [.newSentence 0]).2.act
        (.offer (.cell 0) 1 (item paired 3))).1 = .retained b := by
  have hw : Workspace.new ⟨.nBestHashed 1 1, 4, none⟩ 0 [determiner] = .ok
      ⟨Policy.nBestHashed 1 1, { table := .build (Random.word 0) 4 [determiner] }⟩ := rfl
  have hfailing := (Action.derivations_mono (List.subset_append_left _ _)).trans resumed_subset
  refine ⟨_, hw, ?_⟩
  intro s
  have hs : s.Ran _ trees (.nBestHashed 1 1) := (ran_start _ _).run hfailing
  have hn : 0 < s.workspaces.length := hs.follows.pos
  have hdone : (s.act (.startSentence 0 2)).1 = .done :=
    (hs.startSentence_build rfl 0 2).mpr ⟨hn, by decide⟩
  obtain ⟨h, -⟩ := failures_of_run hw failing
  obtain ⟨hfingerprint, hoffer⟩ := h rfl trees own_trees hfailing
  obtain ⟨e, he, -⟩ := (hfingerprint 0 hn broken (by simp [trees])).2 not_covered_broken
  -- whatever the table, the cell is still there
  have hcell := cell?_run (.nBestHashed 1 1) (.build (Random.word 0) 4 [determiner])
    (own_trees.mono resumed_subset) (.cell 0)
  rw [resumed, run_append] at hcell
  have hlater : Action.derivations [(.newSentence 0 : Action Nat Nat)] ⊆ trees := by
    simp [Action.derivations, Action.derivation?]
  exact ⟨⟨e, he⟩, hdone, hoffer 0 2 [.newSentence 0] hdone hlater (.cell 0) _ (hcell.trans rfl) 1
    (item paired 3) (by simp [item, trees]) covered_paired⟩

end CategorialChart
