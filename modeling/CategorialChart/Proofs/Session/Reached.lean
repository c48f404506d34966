import CategorialChart.Proofs.Cell.Runs
import CategorialChart.Proofs.Session.Hashed

/-! # What sessions reach

`Session.Step` lists what an action can change, and `step_act` says that it changes nothing else.
Hashers and cells in use are described apart from sessions, by `Hasher.Reached` and `Cell.Reached`.
Whatever is done in a session, its workspaces and cells have one policy (`follows_run`), its
workspaces hold such hashers (`hasher_run`), and its cells are such cells (`cell_run`). -/

namespace CategorialChart.Session

open CategorialChart.Derivation (OwnNumbers)

variable {κ σ : Type} {t : ContributionTable} {D : Set Derivation} {policy : Policy σ}
  {s : Session κ σ}

/-! ### What an action changes -/

section Steps
variable [DecidableEq κ] [Ord κ] [LT σ] [DecidableLT σ] [Mul σ]

/-- **The steps of a session**: what an action can make of it. -/
inductive Step (s : Session κ σ) (a : Action κ σ) : Session κ σ → Prop
  | unknown : s.Step a s
  | fork {n : Nat} {w : Workspace σ} (hw : s.workspaces[n]? = some w) :
      s.Step a (s.addWorkspace w.fork).2
  | newSentence {n : Nat} {w : Workspace σ} (hw : s.workspaces[n]? = some w) :
      s.Step a (s.putWorkspace n w.newSentence)
  | fingerprint {n : Nat} {w : Workspace σ} (hw : s.workspaces[n]? = some w) {d : Derivation}
      (hd : d ∈ a.derivation?) : s.Step a (s.putWorkspace n (w.fingerprint d).2)
  | makeCell {n : Nat} {w : Workspace σ} (hw : s.workspaces[n]? = some w) :
      s.Step a (s.addCell ⟨n, w.cell⟩).2
  | makeChart {n : Nat} {w : Workspace σ} (hw : s.workspaces[n]? = some w) {length : Nat}
      {c : Chart κ σ} (hc : (Chart.new w length).1 = .ok c) :
      s.Step a ((s.putWorkspace n w.newSentence).addChart ⟨n, c⟩).2
  | offerCell {n : Nat} {c : Owned (Cell κ σ)} (hc : s.cells[n]? = some c) {w : Workspace σ}
      (hw : s.workspaces[c.workspace]? = some w) (key : κ) {item : Item κ σ}
      (hd : item.derivation ∈ a.derivation?) :
      s.Step a ((s.putHasher c.workspace (if c.value.asks key item then
          (w.hasher.fingerprint item.derivation).2 else w.hasher)).putCell n { c with
        value := (c.value.answer (w.hasher.fingerprint item.derivation).1 key item).2 })
  | offerSpan {n : Nat} {c : Owned (Chart κ σ)} (hc : s.charts[n]? = some c) {w : Workspace σ}
      (hw : s.workspaces[c.workspace]? = some w) (span : Span) (key : κ) {item : Item κ σ}
      (hd : item.derivation ∈ a.derivation?) :
      s.Step a ((s.putHasher c.workspace (if c.value.asks span key item then
          (w.hasher.fingerprint item.derivation).2 else w.hasher)).putChart n { c with
        value := (c.value.answer (w.hasher.fingerprint item.derivation).1 span key item).2 })

theorem step_offer (s : Session κ σ) (place : Place) (key : κ) (item : Item κ σ) :
    s.Step (.offer place key item) (s.offer key item place).2 := by
  cases place with
  | cell n =>
    rw [Session.offer]
    rcases hu : s.cellInUse? n with _ | ⟨c, h⟩
    · exact .unknown
    obtain ⟨hc, w, hw, rfl⟩ := cellInUse?_eq_some hu
    simp only [Cell.offer_eq]
    exact .offerCell hc hw key rfl
  | span n span =>
    rw [Session.offer]
    rcases hu : s.chartInUse? n with _ | ⟨c, h⟩
    · exact .unknown
    obtain ⟨hc, w, hw, rfl⟩ := chartInUse?_eq_some hu
    simp only [Chart.offer_eq]
    exact .offerSpan hc hw span key rfl

theorem step_act (s : Session κ σ) (a : Action κ σ) : s.Step a (s.act a).2 := by
  cases a with
  | offer place key item => exact s.step_offer place key item
  | fork n =>
    rw [act]
    rcases hw : s.workspaces[n]? with _ | w
    · exact .unknown
    · exact .fork hw
  | newSentence n =>
    rw [act]
    rcases hw : s.workspaces[n]? with _ | w
    · exact .unknown
    · exact .newSentence hw
  | startSentence n length =>
    rw [act]
    rcases hw : s.workspaces[n]? with _ | w
    · exact .unknown
    dsimp only
    rw [w.startSentence_snd length]
    exact .newSentence hw
  | fingerprint n d =>
    rw [act]
    rcases hw : s.workspaces[n]? with _ | w
    · exact .unknown
    · exact .fingerprint hw rfl
  | makeCell n =>
    rw [act]
    rcases hw : s.workspaces[n]? with _ | w
    · exact .unknown
    · exact .makeCell hw
  | makeChart n length =>
    rw [act]
    rcases hw : s.workspaces[n]? with _ | w
    · exact .unknown
    have hnext := Chart.new_snd (κ := κ) w length
    dsimp only
    rcases hc : Chart.new (κ := κ) w length with ⟨e | c, w'⟩ <;> rw [hc] at hnext <;>
      obtain rfl : w' = w.newSentence := hnext
    · exact .newSentence hw
    · exact .makeChart hw (congrArg Prod.fst hc)

end Steps

/-! ### Policies -/

/-- All workspaces and all cells have one policy. -/
structure Follows (policy : Policy σ) (s : Session κ σ) : Prop extends Placed s where
  workspace_policy : ∀ w ∈ s.workspaces, w.policy = policy
  cell_policy : ∀ c ∈ s.cells, c.value.policy = policy
  chart_follows : ∀ c ∈ s.charts, c.value.Follows policy

theorem follows_start (policy : Policy σ) (t : ContributionTable) :
    (start policy t : Session κ σ).Follows policy where
  toPlaced := placed_start policy t
  workspace_policy _ hw := congrArg Workspace.policy (List.mem_singleton.mp hw)
  cell_policy _ hc := absurd hc List.not_mem_nil
  chart_follows _ hc := absurd hc List.not_mem_nil

namespace Follows

theorem policy_eq (hs : s.Follows policy) {place : Place} {c : Cell κ σ}
    (hc : s.cell? place = some (.ok c)) : c.policy = policy := by
  cases place with
  | cell n =>
    obtain ⟨o, ho, hoc⟩ := Option.map_eq_some_iff.mp hc
    rw [← Except.ok.inj hoc]
    exact hs.cell_policy o (List.mem_of_getElem? ho)
  | span n span =>
    obtain ⟨o, ho, hoc⟩ := Option.map_eq_some_iff.mp hc
    exact hs.chart_follows o (List.mem_of_getElem? ho) span c hoc

theorem addWorkspace (hs : s.Follows policy) {w : Workspace σ} (hw : w.policy = policy) :
    (s.addWorkspace w).2.Follows policy where
  toPlaced := hs.toPlaced.addWorkspace w
  workspace_policy v hv := by
    rcases List.mem_append.mp hv with hv | hv
    · exact hs.workspace_policy v hv
    · rw [List.mem_singleton.mp hv, hw]
  cell_policy := hs.cell_policy
  chart_follows := hs.chart_follows

theorem putWorkspace (hs : s.Follows policy) (n : Nat) {w : Workspace σ} (hw : w.policy = policy) :
    (s.putWorkspace n w).Follows policy where
  toPlaced := hs.toPlaced.putWorkspace n w
  workspace_policy v hv := by
    rcases List.mem_or_eq_of_mem_set hv with hv | rfl
    · exact hs.workspace_policy v hv
    · exact hw
  cell_policy := hs.cell_policy
  chart_follows := hs.chart_follows

theorem putHasher (hs : s.Follows policy) {n : Nat} {w : Workspace σ}
    (hw : s.workspaces[n]? = some w) (h : Hasher) : (s.putHasher n h).Follows policy := by
  rw [putHasher_eq hw]
  exact hs.putWorkspace n (hs.workspace_policy w (List.mem_of_getElem? hw))

theorem addCell (hs : s.Follows policy) {n : Nat} (hn : n < s.workspaces.length) {c : Cell κ σ}
    (hc : c.policy = policy) : (s.addCell ⟨n, c⟩).2.Follows policy where
  toPlaced := hs.toPlaced.addCell hn c
  workspace_policy := hs.workspace_policy
  cell_policy o ho := by
    rcases List.mem_append.mp ho with ho | ho
    · exact hs.cell_policy o ho
    · rw [List.mem_singleton.mp ho, hc]
  chart_follows := hs.chart_follows

theorem addChart (hs : s.Follows policy) {n : Nat} (hn : n < s.workspaces.length) {c : Chart κ σ}
    (hc : c.Follows policy) : (s.addChart ⟨n, c⟩).2.Follows policy where
  toPlaced := hs.toPlaced.addChart hn c
  workspace_policy := hs.workspace_policy
  cell_policy := hs.cell_policy
  chart_follows o ho := by
    rcases List.mem_append.mp ho with ho | ho
    · exact hs.chart_follows o ho
    · rw [List.mem_singleton.mp ho]
      exact hc

theorem putCell (hs : s.Follows policy) {n : Nat} {o : Owned (Cell κ σ)}
    (ho : s.cells[n]? = some o) {c : Cell κ σ} (hc : c.policy = policy) :
    (s.putCell n { o with value := c }).Follows policy where
  toPlaced := hs.toPlaced.putCell ho c
  workspace_policy := hs.workspace_policy
  cell_policy o' ho' := by
    rcases List.mem_or_eq_of_mem_set ho' with ho' | rfl
    · exact hs.cell_policy o' ho'
    · exact hc
  chart_follows := hs.chart_follows

theorem putChart (hs : s.Follows policy) {n : Nat} {o : Owned (Chart κ σ)}
    (ho : s.charts[n]? = some o) {c : Chart κ σ} (hc : c.Follows policy) :
    (s.putChart n { o with value := c }).Follows policy where
  toPlaced := hs.toPlaced.putChart ho c
  workspace_policy := hs.workspace_policy
  cell_policy := hs.cell_policy
  chart_follows o' ho' := by
    rcases List.mem_or_eq_of_mem_set ho' with ho' | rfl
    · exact hs.chart_follows o' ho'
    · exact hc

end Follows

section Offers
variable [DecidableEq κ] [Ord κ] [LT σ] [DecidableLT σ] [Mul σ]

theorem Follows.step (hs : s.Follows policy) {a : Action κ σ} {s' : Session κ σ}
    (h : s.Step a s') : s'.Follows policy := by
  have hpolicy : ∀ {n : Nat} {w : Workspace σ}, s.workspaces[n]? = some w → w.policy = policy :=
    fun hw => hs.workspace_policy _ (List.mem_of_getElem? hw)
  have hexists : ∀ {n : Nat} {w : Workspace σ}, s.workspaces[n]? = some w →
      n < s.workspaces.length := fun hw => (List.getElem?_eq_some_iff.mp hw).1
  cases h with
  | unknown => exact hs
  | fork hw =>
    have hp := hpolicy hw
    exact hs.addWorkspace hp
  | newSentence hw =>
    have hp := hpolicy hw
    exact hs.putWorkspace _ hp
  | @fingerprint _ w hw d =>
    have hp := (w.policy_fingerprint d).trans (hpolicy hw)
    exact hs.putWorkspace _ hp
  | makeCell hw => exact hs.addCell (hexists hw) (hpolicy hw)
  | @makeChart n w hw length c hc =>
    have hp := hpolicy hw
    have hfollows := Chart.follows_new hc
    rw [hp] at hfollows
    have hs' : (s.putWorkspace n w.newSentence).Follows policy := hs.putWorkspace n hp
    exact hs'.addChart ((hexists hw).trans_eq List.length_set.symm) hfollows
  | offerCell hc hw key =>
    have hp := hs.cell_policy _ (List.mem_of_getElem? hc)
    exact (hs.putHasher hw _).putCell hc ((Cell.policy_answer _ _ key _).trans hp)
  | offerSpan hc hw span key =>
    have hfollows := hs.chart_follows _ (List.mem_of_getElem? hc)
    exact (hs.putHasher hw _).putChart hc (hfollows.answer _ span key _)

/-- **The policy of a session** is that of its first workspace, whatever is done. -/
theorem follows_run : ∀ (as : List (Action κ σ)) {s : Session κ σ}, s.Follows policy →
    (s.run as).2.Follows policy
  | [], _, hs => hs
  | a :: as, s, hs => follows_run as (hs.step (s.step_act a))

end Offers

/-! ### Hashers -/

/-- The workspaces of a session hold hashers in use. -/
def InUse (t : ContributionTable) (D : Set Derivation) (s : Session κ σ) : Prop :=
  ∀ w ∈ s.workspaces, w.hasher.Reached t D

theorem InUse.putWorkspace (hs : s.InUse t D) (n : Nat) {w : Workspace σ}
    (hw : w.hasher.Reached t D) : (s.putWorkspace n w).InUse t D := by
  intro v hv
  rcases List.mem_or_eq_of_mem_set hv with hv | rfl
  · exact hs v hv
  · exact hw

theorem InUse.putHasher (hs : s.InUse t D) {n : Nat} {w : Workspace σ}
    (hw : s.workspaces[n]? = some w) {d : Derivation} (hd : d ∈ D) (b : Bool) :
    (s.putHasher n (if b then (w.hasher.fingerprint d).2 else w.hasher)).InUse t D := by
  have hr := hs w (List.mem_of_getElem? hw)
  rw [putHasher_eq hw]
  exact hs.putWorkspace n (hr.used hd b)

variable [DecidableEq κ] [Ord κ] [LT σ] [DecidableLT σ] [Mul σ]

theorem InUse.step (hs : s.InUse t D) {a : Action κ σ} {s' : Session κ σ} (h : s.Step a s')
    (ha : ∀ d ∈ a.derivation?, d ∈ D) : s'.InUse t D := by
  have huse : ∀ {n : Nat} {w : Workspace σ}, s.workspaces[n]? = some w →
      w.hasher.Reached t D := fun hw => hs _ (List.mem_of_getElem? hw)
  cases h with
  | unknown => exact hs
  | @fork n w hw =>
    intro v hv
    rcases List.mem_append.mp hv with hv | hv
    · exact hs v hv
    · rw [List.mem_singleton.mp hv, Workspace.fork, (huse hw).table_eq]
      exact .new
  | newSentence hw => exact hs.putWorkspace _ (huse hw).clear
  | @fingerprint n w hw d hd =>
    have hused : (w.fingerprint d).2.hasher.Reached t D := by
      rw [w.hasher_fingerprint d]
      exact (huse hw).used (ha d hd) _
    exact hs.putWorkspace n hused
  | makeCell hw => exact hs
  | makeChart hw hc => exact hs.putWorkspace _ (huse hw).clear
  | offerCell hc hw key hd => exact hs.putHasher hw (ha _ hd) _
  | offerSpan hc hw span key hd => exact hs.putHasher hw (ha _ hd) _

/-- **The hashers of a session** come about by taking fingerprints and by forgetting them. -/
theorem hasher_run : ∀ (as : List (Action κ σ)) {s : Session κ σ}, s.InUse t D →
    Action.derivations as ⊆ D → (s.run as).2.InUse t D
  | [], _, hs, _ => hs
  | a :: as, s, hs, has => by
    obtain ⟨ha, hrest⟩ := Action.derivations_cons_subset has
    exact hasher_run as (hs.step (s.step_act a) ha) hrest

/-! ### Cells -/

/-- The cells of a session come about by offers. -/
def Grown (t : ContributionTable) (D : Set Derivation) (policy : Policy σ)
    (s : Session κ σ) : Prop :=
  ∀ place c, s.cell? place = some (.ok c) → ∃ past, c.Reached t D policy past

theorem Grown.plainOffer (hD : OwnNumbers D) (hu : s.Uniform ⟨policy, { table := t }⟩)
    (hs : s.Grown t D policy) (key : κ) {item : Item κ σ} (hd : item.derivation ∈ D)
    (place : Place) : (s.plainOffer key item place).2.Grown t D policy := by
  intro place' c' hc'
  by_cases hp : place = place'
  · subst hp
    by_cases hc : ∃ c, s.cell? place = some (.ok c)
    · obtain ⟨c, hc⟩ := hc
      obtain ⟨past, hr⟩ := hs place c hc
      have hnew : Hasher.Reached t D { table := t } := .new
      rw [(plainOffer_here hu hc key item).2] at hc'
      cases hc'
      have h : (c.offer { table := t } key item).2.1.Reached t D policy (past ++ [(key, item)]) :=
        hr.offer hnew hd
      rw [(Cell.offer_spec hD c hnew key hd).2.1] at h
      exact ⟨_, h⟩
    · rw [(plainOffer_missing hu (fun c h => hc ⟨c, h⟩) key item).2] at hc'
      exact hs place c' hc'
  · rw [plainOffer_elsewhere hu hp key item] at hc'
    exact hs place' c' hc'

theorem Grown.plainAct (hD : OwnNumbers D) (hu : s.Uniform ⟨policy, { table := t }⟩)
    (hs : s.Grown t D policy) {a : Action κ σ} (ha : ∀ d ∈ a.derivation?, d ∈ D) :
    (s.plainAct a).2.Grown t D policy := by
  by_cases hoffer : ∃ p key item, a = .offer p key item
  · obtain ⟨place, key, item, rfl⟩ := hoffer
    exact hs.plainOffer hD hu key (ha _ rfl) place
  · intro place c hc
    have ha' : ∀ p key item, a ≠ .offer p key item := fun p key item he =>
      hoffer ⟨p, key, item, he⟩
    rcases cell?_plainAct rfl hu ha' place with he | ⟨-, hnew⟩
    · rw [he] at hc
      exact hs place c hc
    · rw [hnew c hc]
      exact ⟨[], .new⟩

theorem Grown.plainRun (hD : OwnNumbers D) : ∀ (as : List (Action κ σ)) {s : Session κ σ},
    s.Uniform ⟨policy, { table := t }⟩ → s.Grown t D policy → Action.derivations as ⊆ D →
      (s.plainRun as).2.Grown t D policy
  | [], _, _, hs, _ => hs
  | a :: as, s, hu, hs, has => by
    obtain ⟨ha, hrest⟩ := Action.derivations_cons_subset has
    exact Grown.plainRun hD as (hu.plainAct rfl a) (hs.plainAct hD hu ha) hrest

/-- **The cells of a session** come about by offers, each with a hasher in use. So whatever holds of
all cells in use holds of the cells of a session, those of its charts included. -/
theorem cell_run (policy : Policy σ) (t : ContributionTable) {as : List (Action κ σ)}
    (own : OwnNumbers (Action.derivations as)) {place : Place} {c : Cell κ σ}
    (hc : ((start policy t).run as).2.cell? place = some (.ok c)) :
    ∃ past, c.Reached t (Action.derivations as) policy past := by
  have hstart : (start policy t : Session κ σ).Grown t (Action.derivations as) policy := by
    intro place c h
    rw [cell?_start] at h
    cases h
  rw [cell?_run policy t own] at hc
  exact hstart.plainRun own as (uniform_start policy t) Set.Subset.rfl place c hc

end CategorialChart.Session
