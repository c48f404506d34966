import CategorialChart.Proofs.Session.Plain

/-! # What a session is asked for

Where all workspaces are forks of one, it makes no difference which of them an action names, nor
when a sentence ends. `Action.request` is what is left of an action without these two: it names
workspace `0`, and forks and ends of sentences are no requests at all.

* `Session.Placed`, `Session.Uniform`: cells and charts belong to workspaces, which may be alike.
* `Session.contents`: the cells and charts of a session, without their workspaces.
* `plainAct_request`: two sessions with the same contents, all workspaces being alike, give the same
  reply to actions with the same request and have the same contents afterwards.
* `plainRun_requests`: the answers to a run and the contents after it are those of its requests.
* `run_transparent`: what a session remembers changes no answer.
-/

namespace CategorialChart

open CategorialChart.Derivation (OwnNumbers)

variable {κ σ : Type}

/-- **The request of an action**: the action as one of workspace `0`. Forks and ends of sentences
request nothing. -/
def Action.request : Action κ σ → Option (Action κ σ)
  | .fork _ => none
  | .newSentence _ => none
  | .startSentence _ length => some (.startSentence 0 length)
  | .fingerprint _ derivation => some (.fingerprint 0 derivation)
  | .makeCell _ => some (.makeCell 0)
  | .makeChart _ length => some (.makeChart 0 length)
  | .offer place key item => some (.offer place key item)

/-- The requests of several actions. -/
def Action.requests (as : List (Action κ σ)) : List (Action κ σ) := as.filterMap Action.request

/-- The workspace that an action names. -/
def Action.workspace? : Action κ σ → Option Nat
  | .fork n | .newSentence n | .startSentence n _ | .fingerprint n _ | .makeCell n
  | .makeChart n _ => some n
  | .offer _ _ _ => none

/-- The replies to the actions that request something. -/
def answers : List (Action κ σ) → List Reply → List Reply
  | a :: as, r :: rs => if a.request.isSome then r :: answers as rs else answers as rs
  | _, _ => []

theorem Action.derivation?_request (a : Action κ σ) :
    a.request.bind Action.derivation? = a.derivation? := by
  cases a <;> rfl

theorem Action.derivations_requests (as : List (Action κ σ)) :
    Action.derivations (Action.requests as) = Action.derivations as := by
  unfold Action.derivations Action.requests
  rw [List.filterMap_filterMap]
  simp only [Action.derivation?_request]

namespace Session

/-- The cells and the charts of a session. -/
def contents (s : Session κ σ) : List (Cell κ σ) × List (Chart κ σ) :=
  (s.cells.map Owned.value, s.charts.map Owned.value)

/-- There is a workspace, and everything was made in a workspace of the session. -/
structure Placed (s : Session κ σ) : Prop where
  pos : 0 < s.workspaces.length
  cells : ∀ c ∈ s.cells, c.workspace < s.workspaces.length
  charts : ∀ c ∈ s.charts, c.workspace < s.workspaces.length

/-- **All workspaces are the same**, and everything was made in one of them. -/
structure Uniform (w : Workspace σ) (s : Session κ σ) : Prop extends Placed s where
  alike : ∀ v ∈ s.workspaces, v = w

variable {w : Workspace σ} {s s' : Session κ σ}

theorem placed_start (policy : Policy σ) (table : ContributionTable) :
    (start policy table : Session κ σ).Placed where
  pos := by simp [start]
  cells c hc := by simp [start] at hc
  charts c hc := by simp [start] at hc

theorem uniform_start (policy : Policy σ) (table : ContributionTable) :
    (start policy table : Session κ σ).Uniform ⟨policy, { table }⟩ where
  toPlaced := placed_start policy table
  alike _ hv := List.mem_singleton.mp hv

namespace Placed

theorem addWorkspace (hs : s.Placed) (v : Workspace σ) : (s.addWorkspace v).2.Placed := by
  have hlength : (s.addWorkspace v).2.workspaces.length = s.workspaces.length + 1 :=
    List.length_append
  refine ⟨?_, fun c hc => ?_, fun c hc => ?_⟩ <;> rw [hlength]
  · exact Nat.succ_pos _
  · exact Nat.lt_succ_of_lt (hs.cells c hc)
  · exact Nat.lt_succ_of_lt (hs.charts c hc)

theorem putWorkspace (hs : s.Placed) (n : Nat) (v : Workspace σ) :
    (s.putWorkspace n v).Placed := by
  have hlength : (s.putWorkspace n v).workspaces.length = s.workspaces.length := List.length_set
  refine ⟨?_, fun c hc => ?_, fun c hc => ?_⟩ <;> rw [hlength]
  · exact hs.pos
  · exact hs.cells c hc
  · exact hs.charts c hc

theorem addCell (hs : s.Placed) {n : Nat} (hn : n < s.workspaces.length) (c : Cell κ σ) :
    (s.addCell ⟨n, c⟩).2.Placed where
  pos := hs.pos
  cells d hd := by
    rcases List.mem_append.mp hd with hd | hd
    · exact hs.cells d hd
    · rw [List.mem_singleton.mp hd]
      exact hn
  charts := hs.charts

theorem addChart (hs : s.Placed) {n : Nat} (hn : n < s.workspaces.length) (c : Chart κ σ) :
    (s.addChart ⟨n, c⟩).2.Placed where
  pos := hs.pos
  cells := hs.cells
  charts d hd := by
    rcases List.mem_append.mp hd with hd | hd
    · exact hs.charts d hd
    · rw [List.mem_singleton.mp hd]
      exact hn

theorem putCell (hs : s.Placed) {n : Nat} {c : Owned (Cell κ σ)} (hc : s.cells[n]? = some c)
    (cell : Cell κ σ) : (s.putCell n { c with value := cell }).Placed where
  pos := hs.pos
  cells d hd := by
    rcases List.mem_or_eq_of_mem_set hd with hd | rfl
    · exact hs.cells d hd
    · exact hs.cells c (List.mem_of_getElem? hc)
  charts := hs.charts

theorem putChart (hs : s.Placed) {n : Nat} {c : Owned (Chart κ σ)}
    (hc : s.charts[n]? = some c) (chart : Chart κ σ) :
    (s.putChart n { c with value := chart }).Placed where
  pos := hs.pos
  cells := hs.cells
  charts d hd := by
    rcases List.mem_or_eq_of_mem_set hd with hd | rfl
    · exact hs.charts d hd
    · exact hs.charts c (List.mem_of_getElem? hc)

end Placed

namespace Uniform

theorem workspace (hu : s.Uniform w) {n : Nat} (h : n < s.workspaces.length) :
    s.workspaces[n]? = some w := by
  rw [List.getElem?_eq_getElem h, hu.alike _ (List.getElem_mem h)]

theorem putWorkspace (hu : s.Uniform w) (n : Nat) : s.putWorkspace n w = s := by
  unfold Session.putWorkspace
  congr 1
  refine List.ext_getElem? fun m => ?_
  rw [List.getElem?_set]
  split
  · next hm =>
    subst hm
    split
    · next hn => rw [hu.workspace hn]
    · next hn => rw [List.getElem?_eq_none (by omega)]
  · rfl

theorem inUse? {α : Type} (hu : s.Uniform w) {things : List (Owned α)}
    (ht : ∀ c ∈ things, c.workspace < s.workspaces.length) (n : Nat) :
    Session.inUse? s.workspaces things n = things[n]?.map fun c => (c, w.hasher) := by
  unfold Session.inUse?
  rcases hc : things[n]? with _ | c
  · rfl
  · have hw := hu.workspace (ht c (List.mem_of_getElem? hc))
    simp [hw]

theorem cellInUse? (hu : s.Uniform w) (n : Nat) :
    s.cellInUse? n = s.cells[n]?.map fun c => (c, w.hasher) := hu.inUse? hu.cells n

theorem chartInUse? (hu : s.Uniform w) (n : Nat) :
    s.chartInUse? n = s.charts[n]?.map fun c => (c, w.hasher) := hu.inUse? hu.charts n

theorem fork (hu : s.Uniform w) : (s.addWorkspace w).2.Uniform w where
  toPlaced := hu.toPlaced.addWorkspace w
  alike v hv := by
    rcases List.mem_append.mp hv with hv | hv
    · exact hu.alike v hv
    · exact List.mem_singleton.mp hv

theorem addCell (hu : s.Uniform w) {n : Nat} (hn : n < s.workspaces.length) (c : Cell κ σ) :
    (s.addCell ⟨n, c⟩).2.Uniform w :=
  ⟨hu.toPlaced.addCell hn c, hu.alike⟩

theorem addChart (hu : s.Uniform w) {n : Nat} (hn : n < s.workspaces.length) (c : Chart κ σ) :
    (s.addChart ⟨n, c⟩).2.Uniform w :=
  ⟨hu.toPlaced.addChart hn c, hu.alike⟩

theorem putCell (hu : s.Uniform w) {n : Nat} {c : Owned (Cell κ σ)} (hc : s.cells[n]? = some c)
    (cell : Cell κ σ) : (s.putCell n { c with value := cell }).Uniform w :=
  ⟨hu.toPlaced.putCell hc cell, hu.alike⟩

theorem putChart (hu : s.Uniform w) {n : Nat} {c : Owned (Chart κ σ)}
    (hc : s.charts[n]? = some c) (chart : Chart κ σ) :
    (s.putChart n { c with value := chart }).Uniform w :=
  ⟨hu.toPlaced.putChart hc chart, hu.alike⟩

end Uniform

/-! ### The contents of sessions -/

theorem contents_forgotten (s : Session κ σ) : s.forgotten.contents = s.contents := rfl

theorem cell_of_contents (h : s.contents = s'.contents) (n : Nat) :
    s.cells[n]?.map Owned.value = s'.cells[n]?.map Owned.value := by
  have h1 : s.cells.map Owned.value = s'.cells.map Owned.value := congrArg Prod.fst h
  rw [← List.getElem?_map, h1, List.getElem?_map]

theorem chart_of_contents (h : s.contents = s'.contents) (n : Nat) :
    s.charts[n]?.map Owned.value = s'.charts[n]?.map Owned.value := by
  have h1 : s.charts.map Owned.value = s'.charts.map Owned.value := congrArg Prod.snd h
  rw [← List.getElem?_map, h1, List.getElem?_map]

theorem contents_addCell (s : Session κ σ) (c : Owned (Cell κ σ)) :
    (s.addCell c).2.contents = (s.contents.1 ++ [c.value], s.contents.2) := by
  simp [addCell, contents]

theorem contents_addChart (s : Session κ σ) (c : Owned (Chart κ σ)) :
    (s.addChart c).2.contents = (s.contents.1, s.contents.2 ++ [c.value]) := by
  simp [addChart, contents]

theorem contents_putCell (s : Session κ σ) (n : Nat) (c : Owned (Cell κ σ)) :
    (s.putCell n c).contents = (s.contents.1.set n c.value, s.contents.2) := by
  simp [putCell, contents, List.map_set]

theorem contents_putChart (s : Session κ σ) (n : Nat) (c : Owned (Chart κ σ)) :
    (s.putChart n c).contents = (s.contents.1, s.contents.2.set n c.value) := by
  simp [putChart, contents, List.map_set]

section Offers
variable [DecidableEq κ] [Ord κ] [LT σ] [DecidableLT σ] [Mul σ]

theorem Uniform.plainOffer (hu : s.Uniform w) (key : κ) (item : Item κ σ) (place : Place) :
    (s.plainOffer key item place).2.Uniform w := by
  cases place with
  | cell n =>
    rw [Session.plainOffer, hu.cellInUse?]
    rcases hc : s.cells[n]? with _ | c
    · exact hu
    · exact hu.putCell hc _
  | span n span =>
    rw [Session.plainOffer, hu.chartInUse?]
    rcases hc : s.charts[n]? with _ | c
    · exact hu
    · exact hu.putChart hc _

theorem plainOffer_contents (hu : s.Uniform w) (hu' : s'.Uniform w)
    (h : s.contents = s'.contents) (key : κ) (item : Item κ σ) (place : Place) :
    (s.plainOffer key item place).1 = (s'.plainOffer key item place).1 ∧
      (s.plainOffer key item place).2.contents = (s'.plainOffer key item place).2.contents := by
  cases place with
  | cell n =>
    have hn := cell_of_contents h n
    rw [plainOffer, plainOffer, hu.cellInUse?, hu'.cellInUse?]
    rcases hc : s.cells[n]? with _ | c <;> rcases hc' : s'.cells[n]? with _ | c' <;>
      rw [hc, hc'] at hn
    · exact ⟨rfl, h⟩
    · cases hn
    · cases hn
    · have hv : c.value = c'.value := Option.some.inj hn
      simp only [Option.map_some, contents_putCell, hv, h]
      exact ⟨trivial, trivial⟩
  | span n span =>
    have hn := chart_of_contents h n
    rw [plainOffer, plainOffer, hu.chartInUse?, hu'.chartInUse?]
    rcases hc : s.charts[n]? with _ | c <;> rcases hc' : s'.charts[n]? with _ | c' <;>
      rw [hc, hc'] at hn
    · exact ⟨rfl, h⟩
    · cases hn
    · cases hn
    · have hv : c.value = c'.value := Option.some.inj hn
      simp only [Option.map_some, contents_putChart, hv, h]
      exact ⟨trivial, trivial⟩

/-! ### Actions and their requests -/

/-- The action in a session whose workspaces are all `w`, which remembers nothing. -/
def actIn (w : Workspace σ) (s : Session κ σ) : Action κ σ → Reply × Session κ σ
  | .fork _ => s.addWorkspace w
  | .newSentence _ => (.done, s)
  | .startSentence _ length => (.of (fun _ => .done) (w.startSentence length).1, s)
  | .fingerprint _ derivation =>
    (.of .fingerprint ((w.plainFingerprint derivation).mapError .fingerprint), s)
  | .makeCell n => s.addCell ⟨n, w.cell⟩
  | .makeChart n length =>
    match (Chart.new w length).1 with
    | .error e => (.failed e, s)
    | .ok chart => s.addChart ⟨n, chart⟩
  | .offer place key item => s.plainOffer key item place

theorem plainAct_of_missing {a : Action κ σ} {n : Nat} (ha : a.workspace? = some n)
    (hn : s.workspaces[n]? = none) : s.plainAct a = (.unknown, s) := by
  cases a with
  | offer place key item => cases ha
  | _ =>
    cases ha
    simp [plainAct, act, hn]

/-- Where all workspaces are alike, an action on one of them is an action on any. -/
theorem plainAct_eq_actIn (hw : w.newSentence = w) (hu : s.Uniform w) {a : Action κ σ}
    (ha : ∀ n ∈ a.workspace?, n < s.workspaces.length) : s.plainAct a = actIn w s a := by
  cases a with
  | fork n =>
    have hf : w.fork = w := hw
    rw [plainAct_eq_act rfl, act, hu.workspace (ha n rfl)]
    simp only [hf, actIn]
  | newSentence n =>
    rw [plainAct_eq_act rfl, act, hu.workspace (ha n rfl)]
    simp only [hw, hu.putWorkspace, actIn]
  | startSentence n length =>
    rw [plainAct_eq_act rfl, act, hu.workspace (ha n rfl)]
    simp only [w.startSentence_snd, hw, hu.putWorkspace, actIn]
  | fingerprint n d => rw [plainAct, hu.workspace (ha n rfl), actIn]
  | makeCell n => rw [plainAct_eq_act rfl, act, hu.workspace (ha n rfl), actIn]
  | makeChart n length =>
    rw [plainAct_eq_act rfl, act, hu.workspace (ha n rfl), actIn]
    have h2 := Chart.new_snd (κ := κ) w length
    rw [hw] at h2
    rcases hc : Chart.new (κ := κ) w length with ⟨e | chart, w'⟩ <;> rw [hc] at h2 <;> subst h2 <;>
      simp only [hc, hu.putWorkspace]
  | offer place key item => rfl

/-- A session in which all workspaces are alike and remember nothing stays so. -/
theorem Uniform.plainAct (hw : w.newSentence = w) (hu : s.Uniform w) (a : Action κ σ) :
    (s.plainAct a).2.Uniform w := by
  by_cases ha : ∀ n ∈ a.workspace?, n < s.workspaces.length
  · rw [plainAct_eq_actIn hw hu ha]
    cases a with
    | fork n => exact hu.fork
    | makeCell n => exact hu.addCell (ha n rfl) _
    | makeChart n length =>
      rw [actIn]
      rcases (Chart.new w length).1 with e | chart
      · exact hu
      · exact hu.addChart (ha n rfl) chart
    | offer place key item => exact hu.plainOffer key item place
    | _ => exact hu
  · push Not at ha
    obtain ⟨n, hn, hlt⟩ := ha
    rw [plainAct_of_missing hn (List.getElem?_eq_none hlt)]
    exact hu

theorem Uniform.plainRun (hw : w.newSentence = w) : ∀ (as : List (Action κ σ))
    {s : Session κ σ}, s.Uniform w → (s.plainRun as).2.Uniform w
  | [], _, hu => hu
  | a :: as, _, hu => Uniform.plainRun hw as (hu.plainAct hw a)

/-- An action that is answered names a workspace that is there. -/
theorem workspace_of_answered {a : Action κ σ} (ha : (s.plainAct a).1 ≠ .unknown) :
    ∀ n ∈ a.workspace?, n < s.workspaces.length := by
  intro n hn
  by_contra hlt
  rw [plainAct_of_missing hn (List.getElem?_eq_none (Nat.not_lt.mp hlt))] at ha
  exact ha rfl

theorem contents_of_no_request (hw : w.newSentence = w) (hu : s.Uniform w) {a : Action κ σ}
    (ha : ∀ n ∈ a.workspace?, n < s.workspaces.length) (hr : a.request = none) :
    (s.plainAct a).2.contents = s.contents := by
  rw [plainAct_eq_actIn hw hu ha]
  cases a with
  | fork n => rfl
  | newSentence n => rfl
  | _ => cases hr

/-- **A request** is answered alike, and changes the contents alike, whichever workspace it is put
to. -/
theorem plainAct_request (hw : w.newSentence = w) (hu : s.Uniform w) (hu' : s'.Uniform w)
    (h : s.contents = s'.contents) {a r : Action κ σ}
    (ha : ∀ n ∈ a.workspace?, n < s.workspaces.length) (hr : a.request = some r) :
    (s.plainAct a).1 = (s'.plainAct r).1 ∧
      (s.plainAct a).2.contents = (s'.plainAct r).2.contents ∧ (s'.plainAct r).2.Uniform w := by
  have hr' : ∀ n ∈ r.workspace?, n < s'.workspaces.length := by
    intro n hn
    have := hu'.pos
    cases a <;> cases hr <;> cases hn <;> exact this
  rw [← and_assoc]
  refine ⟨?_, hu'.plainAct hw r⟩
  rw [plainAct_eq_actIn hw hu ha, plainAct_eq_actIn hw hu' hr']
  cases a with
  | fork n => cases hr
  | newSentence n => cases hr
  | startSentence n length => cases hr; exact ⟨rfl, h⟩
  | fingerprint n d => cases hr; exact ⟨rfl, h⟩
  | makeCell n =>
    cases hr
    rw [actIn, actIn, contents_addCell, contents_addCell, h]
    refine ⟨?_, rfl⟩
    have hl := congrArg (fun x => x.1.length) h
    simp only [contents, List.length_map] at hl
    rw [addCell, addCell, hl]
  | makeChart n length =>
    cases hr
    rw [actIn, actIn]
    rcases (Chart.new w length).1 with e | chart
    · exact ⟨rfl, h⟩
    · simp only [contents_addChart, h, and_true]
      have hl := congrArg (fun x => x.2.length) h
      simp only [contents, List.length_map] at hl
      rw [addChart, addChart, hl]
  | offer place key item => cases hr; exact plainOffer_contents hu hu' h key item place

/-- **The answers to a run** and the contents after it are those of its requests, all put to one
workspace. -/
theorem plainRun_requests (hw : w.newSentence = w) : ∀ (as : List (Action κ σ))
    {s s' : Session κ σ}, s.Uniform w → s'.Uniform w → s.contents = s'.contents →
      Reply.unknown ∉ (s.plainRun as).1 →
        answers as (s.plainRun as).1 = (s'.plainRun (Action.requests as)).1 ∧
          (s.plainRun as).2.contents = (s'.plainRun (Action.requests as)).2.contents
  | [], s, s', _, _, h, _ => ⟨rfl, h⟩
  | a :: as, s, s', hu, hu', h, hn => by
    rw [plainRun, List.mem_cons, not_or] at hn
    have ha := workspace_of_answered (Ne.symm hn.1)
    rw [plainRun, answers, Action.requests, List.filterMap_cons, ← Action.requests]
    rcases hr : a.request with _ | r
    · have hc := contents_of_no_request hw hu ha hr
      exact plainRun_requests hw as (hu.plainAct hw a) hu' (hc.trans h) hn.2
    · obtain ⟨h1, h2, h3⟩ := plainAct_request hw hu hu' h ha hr
      obtain ⟨h4, h5⟩ := plainRun_requests hw as (hu.plainAct hw a) h3 h2 hn.2
      rw [plainRun, ← h1, ← h4]
      exact ⟨rfl, h5⟩

/-! ### Runs from the start -/

/-- The answers to a run from the start and the contents after it, read off its requests. -/
theorem run_requests (policy : Policy σ) (table : ContributionTable) {as : List (Action κ σ)}
    (own : OwnNumbers (Action.derivations as))
    (hn : Reply.unknown ∉ ((start policy table).run as).1) :
    answers as ((start policy table).run as).1 =
        ((start policy table).plainRun (Action.requests as)).1 ∧
      ((start policy table).run as).2.contents =
        ((start policy table).plainRun (Action.requests as)).2.contents := by
  obtain ⟨h1, h2⟩ := run_start policy table own
  have hu := uniform_start (κ := κ) policy table
  rw [h1] at hn
  rw [h1, ← contents_forgotten ((start policy table).run as).2, h2]
  exact plainRun_requests rfl as hu hu rfl hn

/-- **Remembering changes no answer.** A run from the start has the replies of the plain run, which
takes every fingerprint by walking the unfolded tree, and leads to the same session up to what is
remembered. So two runs with the same requests, which may differ in forks, in ends of sentences and
in the workspace that each action is put to, have the same answers, cells and charts. -/
theorem run_transparent (policy : Policy σ) (table : ContributionTable) {as : List (Action κ σ)}
    (own : OwnNumbers (Action.derivations as)) :
    ((start policy table).run as).1 = ((start policy table).plainRun as).1 ∧
      ((start policy table).run as).2.forgotten = ((start policy table).plainRun as).2 ∧
      ∀ bs, Action.requests bs = Action.requests as →
        Reply.unknown ∉ ((start policy table).run as).1 →
        Reply.unknown ∉ ((start policy table).run bs).1 →
          answers bs ((start policy table).run bs).1 =
              answers as ((start policy table).run as).1 ∧
            ((start policy table).run bs).2.contents =
              ((start policy table).run as).2.contents := by
  obtain ⟨h1, h2⟩ := run_start policy table own
  refine ⟨h1, h2, fun bs hbs has hbn => ?_⟩
  have own' : OwnNumbers (Action.derivations bs) := by
    rw [← Action.derivations_requests, hbs, Action.derivations_requests]
    exact own
  obtain ⟨h3, h4⟩ := run_requests policy table own has
  obtain ⟨h5, h6⟩ := run_requests policy table own' hbn
  rw [h3, h4, h5, h6, hbs]
  exact ⟨rfl, rfl⟩

end Offers

end Session

namespace Forest

open Session (start)

/-- A fingerprint, then an offer of the same node to a cell. -/
def plainly : List (Action Nat Nat) :=
  [.fingerprint 0 raised, .makeCell 0, .offer (.cell 0) 0 (item raised 3)]

/-- The same with a new sentence in between, and with the cell in a fork. -/
def forked : List (Action Nat Nat) :=
  [.fingerprint 0 raised, .fork 0, .newSentence 1, .makeCell 1,
    .offer (.cell 0) 0 (item raised 3)]

theorem own_plainly : OwnNumbers (Action.derivations plainly) :=
  own.mono fun d hd => by
    have hd' : d ∈ [raised, (item raised 3).derivation] := hd
    simp_all [item]

theorem own_forked : OwnNumbers (Action.derivations forked) := own_plainly

end Forest

open Forest in
/-- The answers to a run, and to the same requests with a fork and the end of a sentence. -/
theorem Session.run_transparent_forest :
    answers forked ((start (.nBestHashed 1 1) table).run forked).1 =
      answers plainly ((start (.nBestHashed 1 1) table).run plainly).1 := by
  obtain ⟨hrun, -, hmoved⟩ := run_transparent (.nBestHashed 1 1) table own_plainly
  have hforked := (run_start (.nBestHashed 1 1) table own_forked).1
  exact (hmoved forked rfl (by rw [hrun]; decide) (by rw [hforked]; decide)).1

end CategorialChart
