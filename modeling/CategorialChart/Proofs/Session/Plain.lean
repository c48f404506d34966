import CategorialChart.Proofs.Cell.Answer
import CategorialChart.Proofs.Fingerprint.Memory
import CategorialChart.Session

/-! # Sessions that remember nothing

`Session.plainRun` runs the actions of a session and takes every fingerprint by walking the
unfolded tree, so what its workspaces remember plays no part. `Session.forgotten` is a session with
all of that taken away.

* `Session.Remembers`: whatever a workspace of the session remembers is true.
* `act_spec`: an action of a session that remembers the truth has the reply of the plain action,
  leads to the same session up to what is remembered, and remembers the truth afterwards.
* `run_spec`: so does any number of actions in a row. -/

namespace CategorialChart

open CategorialChart.Derivation (OwnNumbers)

variable {κ σ : Type}

/-! ### Plain actions -/

/-- The fingerprint of a derivation, taken by the plain walk, if the policy takes fingerprints. -/
def Workspace.plainFingerprint (w : Workspace σ) (d : Derivation) :
    Except TermError (Option Fingerprint) :=
  if w.policy.has .structuralDedup then (w.hasher.table.fingerprint d).map some else .ok none

theorem Workspace.startSentence_snd (w : Workspace σ) (length : Nat) :
    (w.startSentence length).2 = w.newSentence := by
  unfold Workspace.startSentence
  by_cases h : w.newSentence.policy.has .structuralDedup ∧ w.newSentence.maxSentenceLength < length
  · simp only [if_pos h]
  · simp only [if_neg h]

theorem Chart.new_snd (w : Workspace σ) (length : Nat) :
    (Chart.new (κ := κ) w length).2 = w.newSentence := by
  rw [← w.startSentence_snd length, Chart.new]
  rcases w.startSentence length with ⟨_ | _, w'⟩ <;> rfl

/-- A chart is made as soon as its sentence is begun. -/
theorem Chart.new_fst (w : Workspace σ) (length : Nat) : (Chart.new (κ := κ) w length).1 =
    (w.startSentence length).1.map fun _ => ⟨length, .replicate _ w.cell⟩ := by
  have hw := w.startSentence_snd length
  rw [Chart.new]
  rcases hs : w.startSentence length with ⟨e | u, w'⟩ <;> rw [hs] at hw <;> subst hw <;> rfl

theorem Chart.eq_of_new {w : Workspace σ} {length : Nat} {c : Chart κ σ}
    (h : (Chart.new w length).1 = .ok c) : c = ⟨length, .replicate _ w.cell⟩ := by
  rw [Chart.new_fst] at h
  rcases hs : (w.startSentence length).1 with e | u <;> rw [hs] at h <;> cases h
  rfl

theorem Workspace.fingerprint_spec {D : Set Derivation} (hD : OwnNumbers D) {w : Workspace σ}
    (hw : w.hasher.cache.Sound w.hasher.table D) {d : Derivation} (hd : d ∈ D) :
    (w.fingerprint d).1 = w.plainFingerprint d ∧
      (w.fingerprint d).2.newSentence = w.newSentence ∧
      (w.fingerprint d).2.hasher.cache.Sound (w.fingerprint d).2.hasher.table D := by
  obtain ⟨h1, h2⟩ := Hasher.fingerprint_spec hD hw hd
  unfold Workspace.fingerprint Workspace.plainFingerprint
  by_cases hp : w.policy.has .structuralDedup = true
  · simp only [if_pos hp]
    exact ⟨by rw [h1], rfl, h2⟩
  · simp only [if_neg hp]
    exact ⟨trivial, trivial, hw⟩

/-- The derivation that an action may take the fingerprint of. -/
def Action.derivation? : Action κ σ → Option Derivation
  | .fingerprint _ derivation => some derivation
  | .offer _ _ item => some item.derivation
  | _ => none

/-- The derivations of several actions. -/
def Action.derivations (as : List (Action κ σ)) : Set Derivation :=
  {d | d ∈ as.filterMap Action.derivation?}

theorem Action.derivations_mono {as bs : List (Action κ σ)} (h : as ⊆ bs) :
    Action.derivations as ⊆ Action.derivations bs := by
  intro d hd
  obtain ⟨a, ha, had⟩ := List.mem_filterMap.mp hd
  exact List.mem_filterMap.mpr ⟨a, h ha, had⟩

theorem Action.derivations_append (as bs : List (Action κ σ)) :
    Action.derivations (as ++ bs) = Action.derivations as ∪ Action.derivations bs := by
  ext d
  simp [Action.derivations]

theorem Action.derivations_cons_subset {a : Action κ σ} {as : List (Action κ σ)}
    {D : Set Derivation} (h : Action.derivations (a :: as) ⊆ D) :
    (∀ d ∈ a.derivation?, d ∈ D) ∧ Action.derivations as ⊆ D := by
  refine ⟨fun d hd => h ?_, (Action.derivations_mono (List.subset_cons_self a as)).trans h⟩
  exact List.mem_filterMap.mpr ⟨a, List.mem_cons_self, hd⟩

/-- The cells of a chart have a place for each span of its sentence. -/
theorem Chart.index_lt {c : Chart κ σ} {span : Span} (h : span.Within c.length) :
    span.index < spanCount c.length :=
  Span.index_lt h

section Offers
variable [DecidableEq κ] [Ord κ] [LT σ] [DecidableLT σ] [Mul σ]

/-- What becomes of an offer to the cell of a span whose derivation has a known fingerprint. -/
def Chart.answer (c : Chart κ σ) (fingerprint : Except TermError Fingerprint) (span : Span)
    (key : κ) (item : Item κ σ) : Except ChartError Bool × Chart κ σ :=
  if h : span.Within c.length then
    have := Chart.index_lt h
    match c.cells[span.index].answer fingerprint key item with
    | (result, cell) =>
      (result.mapError .fingerprint, { c with cells := c.cells.set span.index cell })
  else (.error (.spanOutOfRange span.start span.stop c.length), c)

/-- Whether an offer to the cell of a span takes a fingerprint. -/
def Chart.asks (c : Chart κ σ) (span : Span) (key : κ) (item : Item κ σ) : Bool :=
  if h : span.Within c.length then
    have := Chart.index_lt h
    c.cells[span.index].asks key item
  else false

theorem Chart.offer_eq (c : Chart κ σ) (hasher : Hasher) (span : Span) (key : κ)
    (item : Item κ σ) :
    c.offer hasher span key item =
      ((c.answer (hasher.fingerprint item.derivation).1 span key item).1,
        (c.answer (hasher.fingerprint item.derivation).1 span key item).2,
        if c.asks span key item then (hasher.fingerprint item.derivation).2 else hasher) := by
  unfold Chart.offer Chart.answer Chart.asks
  by_cases h : span.Within c.length
  · simp only [dif_pos h, Cell.offer_eq]
  · simp [dif_neg h]

namespace Session

/-- An offer whose fingerprint is taken by the plain walk. -/
def plainOffer (s : Session κ σ) (key : κ) (item : Item κ σ) : Place → Reply × Session κ σ
  | .cell number =>
    match s.cellInUse? number with
    | none => (.unknown, s)
    | some (c, hasher) =>
      match c.value.answer (hasher.table.fingerprint item.derivation) key item with
      | (result, cell) =>
        (.of .retained (result.mapError .fingerprint), s.putCell number { c with value := cell })
  | .span number span =>
    match s.chartInUse? number with
    | none => (.unknown, s)
    | some (c, hasher) =>
      match c.value.answer (hasher.table.fingerprint item.derivation) span key item with
      | (result, chart) => (.of .retained result, s.putChart number { c with value := chart })

/-- **A plain action**: one that takes its fingerprint by the plain walk. -/
def plainAct (s : Session κ σ) : Action κ σ → Reply × Session κ σ
  | .fingerprint n derivation =>
    match s.workspaces[n]? with
    | none => (.unknown, s)
    | some w => (.of .fingerprint ((w.plainFingerprint derivation).mapError .fingerprint), s)
  | .offer place key item => s.plainOffer key item place
  | action => s.act action

/-- Several plain actions in a row. -/
def plainRun (s : Session κ σ) : List (Action κ σ) → List Reply × Session κ σ
  | [] => ([], s)
  | action :: actions =>
    ((s.plainAct action).1 :: ((s.plainAct action).2.plainRun actions).1,
      ((s.plainAct action).2.plainRun actions).2)

end Session

end Offers

namespace Session

/-- The session with nothing remembered. -/
def forgotten (s : Session κ σ) : Session κ σ :=
  { s with workspaces := s.workspaces.map Workspace.newSentence }

/-- What the workspaces remember of the nodes of `D` is true. -/
def Remembers (D : Set Derivation) (s : Session κ σ) : Prop :=
  ∀ w ∈ s.workspaces, w.hasher.cache.Sound w.hasher.table D

/-- The session that starts with one workspace, which has not been used yet. -/
def start (policy : Policy σ) (table : ContributionTable) : Session κ σ :=
  { workspaces := [⟨policy, { table }⟩] }

theorem remembers_start (D : Set Derivation) (policy : Policy σ) (table : ContributionTable) :
    (start policy table : Session κ σ).Remembers D := by
  intro w hw
  rw [List.mem_singleton.mp hw]
  exact Cache.sound_empty

/-! ### Forgetting -/

variable {D : Set Derivation} {s : Session κ σ}

theorem workspace_forgotten (s : Session κ σ) (n : Nat) :
    s.forgotten.workspaces[n]? = s.workspaces[n]?.map Workspace.newSentence := by
  rw [forgotten, List.getElem?_map]

/-- A cell or a chart, with the hasher that it uses. -/
def inUse? {α : Type} (workspaces : List (Workspace σ)) (things : List (Owned α)) (number : Nat) :
    Option (Owned α × Hasher) := do
  let c ← things[number]?
  let w ← workspaces[c.workspace]?
  return (c, w.hasher)

theorem inUse?_newSentence {α : Type} (ws : List (Workspace σ)) (things : List (Owned α))
    (n : Nat) :
    inUse? (ws.map Workspace.newSentence) things n =
      (inUse? ws things n).map fun p => (p.1, p.2.clear) := by
  unfold inUse?
  rcases hc : things[n]? with _ | c
  · simp
  · rcases hw : ws[c.workspace]? with _ | w <;> simp [hw, Workspace.newSentence]

theorem inUse?_eq_some {α : Type} {ws : List (Workspace σ)} {things : List (Owned α)} {n : Nat}
    {c : Owned α} {h : Hasher} (hu : inUse? ws things n = some (c, h)) :
    things[n]? = some c ∧ ∃ w, ws[c.workspace]? = some w ∧ w.hasher = h := by
  unfold inUse? at hu
  rcases hc : things[n]? with _ | c'
  · simp [hc] at hu
  · rcases hw : ws[c'.workspace]? with _ | w
    · simp [hc, hw] at hu
    · simp only [hc, hw, Option.bind_eq_bind, Option.bind_some, Option.pure_def,
        Option.some.injEq, Prod.mk.injEq] at hu
      obtain ⟨rfl, rfl⟩ := hu
      exact ⟨rfl, w, hw, rfl⟩

theorem cellInUse?_forgotten (s : Session κ σ) (n : Nat) :
    s.forgotten.cellInUse? n = (s.cellInUse? n).map fun p => (p.1, p.2.clear) :=
  inUse?_newSentence s.workspaces s.cells n

theorem chartInUse?_forgotten (s : Session κ σ) (n : Nat) :
    s.forgotten.chartInUse? n = (s.chartInUse? n).map fun p => (p.1, p.2.clear) :=
  inUse?_newSentence s.workspaces s.charts n

theorem cellInUse?_eq_some {n : Nat} {c : Owned (Cell κ σ)} {h : Hasher}
    (hu : s.cellInUse? n = some (c, h)) :
    s.cells[n]? = some c ∧ ∃ w, s.workspaces[c.workspace]? = some w ∧ w.hasher = h :=
  inUse?_eq_some hu

theorem chartInUse?_eq_some {n : Nat} {c : Owned (Chart κ σ)} {h : Hasher}
    (hu : s.chartInUse? n = some (c, h)) :
    s.charts[n]? = some c ∧ ∃ w, s.workspaces[c.workspace]? = some w ∧ w.hasher = h :=
  inUse?_eq_some hu

/-- Putting a workspace back changes nothing but what is remembered, if its policy and table are
those it had. -/
theorem forgotten_putWorkspace {n : Nat} {w w' : Workspace σ} (hw : s.workspaces[n]? = some w)
    (h : w'.newSentence = w.newSentence) : (s.putWorkspace n w').forgotten = s.forgotten := by
  unfold forgotten putWorkspace
  congr 1
  rw [List.map_set, h]
  refine List.ext_getElem? fun m => ?_
  rw [List.getElem?_set]
  split
  · next hm =>
    subst hm
    rw [List.getElem?_map, hw]
    obtain ⟨hlt, -⟩ := List.getElem?_eq_some_iff.mp hw
    simp [hlt]
  · rfl

theorem forgotten_putNewSentence (s : Session κ σ) (n : Nat) (w : Workspace σ) :
    (s.putWorkspace n w.newSentence).forgotten = s.forgotten.putWorkspace n w.newSentence := by
  unfold forgotten putWorkspace
  rw [List.map_set]
  rfl

theorem putHasher_eq {n : Nat} {w : Workspace σ} (hw : s.workspaces[n]? = some w) (h : Hasher) :
    s.putHasher n h = s.putWorkspace n { w with hasher := h } := by
  unfold putHasher putWorkspace
  congr 1
  refine List.ext_getElem? fun m => ?_
  rw [List.getElem?_modify, List.getElem?_set]
  split
  · next hm =>
    subst hm
    obtain ⟨hlt, -⟩ := List.getElem?_eq_some_iff.mp hw
    rw [hw, if_pos hlt]
    simp
  · simp

theorem Remembers.putWorkspace (hs : s.Remembers D) (n : Nat) {w : Workspace σ}
    (hw : w.hasher.cache.Sound w.hasher.table D) : (s.putWorkspace n w).Remembers D := by
  intro v hv
  rcases List.mem_or_eq_of_mem_set hv with hv | rfl
  · exact hs v hv
  · exact hw

theorem Remembers.addWorkspace (hs : s.Remembers D) {w : Workspace σ}
    (hw : w.hasher.cache.Sound w.hasher.table D) : (s.addWorkspace w).2.Remembers D := by
  intro v hv
  rcases List.mem_append.mp hv with hv | hv
  · exact hs v hv
  · rw [List.mem_singleton.mp hv]
    exact hw

/-- A hasher put back after it was used for its table. -/
theorem forgotten_putHasher {n : Nat} {w : Workspace σ} (hw : s.workspaces[n]? = some w)
    {h : Hasher} (ht : h.table = w.hasher.table) : (s.putHasher n h).forgotten = s.forgotten := by
  rw [putHasher_eq hw]
  refine forgotten_putWorkspace hw ?_
  unfold Workspace.newSentence Hasher.clear
  rw [ht]

theorem Remembers.putHasher (hs : s.Remembers D) {n : Nat} {w : Workspace σ}
    (hw : s.workspaces[n]? = some w) {h : Hasher} (hh : h.cache.Sound h.table D) :
    (s.putHasher n h).Remembers D := by
  rw [putHasher_eq hw]
  exact hs.putWorkspace n hh

theorem Remembers.forgotten_put (hD : OwnNumbers D) (hs : s.Remembers D) {n : Nat}
    {w : Workspace σ} (hw : s.workspaces[n]? = some w) {d : Derivation} (hd : d ∈ D) (b : Bool) :
    (s.putHasher n (if b then (w.hasher.fingerprint d).2 else w.hasher)).forgotten =
        s.forgotten ∧
      (s.putHasher n (if b then (w.hasher.fingerprint d).2 else w.hasher)).Remembers D := by
  have hsound := hs w (List.mem_of_getElem? hw)
  cases b with
  | false => exact ⟨forgotten_putHasher hw rfl, hs.putHasher hw hsound⟩
  | true =>
    exact ⟨forgotten_putHasher hw rfl, hs.putHasher hw (Hasher.fingerprint_spec hD hsound hd).2⟩

/-! ### Actions -/

section Offers
variable [DecidableEq κ] [Ord κ] [LT σ] [DecidableLT σ] [Mul σ]

/-- An offer is a plain offer, whatever is remembered. -/
theorem offer_spec (hD : OwnNumbers D) (hs : s.Remembers D) (key : κ) {item : Item κ σ}
    (hd : item.derivation ∈ D) (place : Place) :
    (s.offer key item place).1 = (s.forgotten.plainOffer key item place).1 ∧
      (s.offer key item place).2.forgotten = (s.forgotten.plainOffer key item place).2 ∧
      (s.offer key item place).2.Remembers D := by
  cases place with
  | cell n =>
    rw [offer, plainOffer, cellInUse?_forgotten]
    rcases hu : s.cellInUse? n with _ | ⟨c, h⟩
    · exact ⟨rfl, rfl, hs⟩
    obtain ⟨-, w, hw, rfl⟩ := cellInUse?_eq_some hu
    obtain ⟨h1, -⟩ := Hasher.fingerprint_spec hD (hs w (List.mem_of_getElem? hw)) hd
    obtain ⟨h2, h3⟩ := hs.forgotten_put hD hw hd (c.value.asks key item)
    simp only [Cell.offer_eq, h1, Option.map_some, Hasher.table_clear, true_and]
    refine ⟨?_, h3⟩
    rw [← h2]
    rfl
  | span n span =>
    rw [offer, plainOffer, chartInUse?_forgotten]
    rcases hu : s.chartInUse? n with _ | ⟨c, h⟩
    · exact ⟨rfl, rfl, hs⟩
    obtain ⟨-, w, hw, rfl⟩ := chartInUse?_eq_some hu
    obtain ⟨h1, -⟩ := Hasher.fingerprint_spec hD (hs w (List.mem_of_getElem? hw)) hd
    obtain ⟨h2, h3⟩ := hs.forgotten_put hD hw hd (c.value.asks span key item)
    simp only [Chart.offer_eq, h1, Option.map_some, Hasher.table_clear, true_and]
    refine ⟨?_, h3⟩
    rw [← h2]
    rfl

theorem plainAct_eq_act {a : Action κ σ} (h : a.derivation? = none) : s.plainAct a = s.act a := by
  cases a with
  | fingerprint n d => cases h
  | offer place key item => cases h
  | _ => rfl

/-- **An action is a plain action**, whatever is remembered. -/
theorem act_spec (hD : OwnNumbers D) (hs : s.Remembers D) {a : Action κ σ}
    (ha : ∀ d ∈ a.derivation?, d ∈ D) :
    (s.act a).1 = (s.forgotten.plainAct a).1 ∧
      (s.act a).2.forgotten = (s.forgotten.plainAct a).2 ∧ (s.act a).2.Remembers D := by
  cases a with
  | fork n =>
    rw [plainAct_eq_act rfl, act, act, workspace_forgotten]
    rcases hw : s.workspaces[n]? with _ | w
    · exact ⟨rfl, rfl, hs⟩
    refine ⟨?_, ?_, hs.addWorkspace Cache.sound_empty⟩
    · simp [addWorkspace, forgotten]
    · simp [addWorkspace, forgotten, Workspace.fork, Workspace.newSentence, Hasher.clear]
  | newSentence n =>
    rw [plainAct_eq_act rfl, act, act, workspace_forgotten]
    rcases hw : s.workspaces[n]? with _ | w
    · exact ⟨rfl, rfl, hs⟩
    exact ⟨rfl, forgotten_putNewSentence s n w, hs.putWorkspace n Cache.sound_empty⟩
  | startSentence n length =>
    rw [plainAct_eq_act rfl, act, act, workspace_forgotten]
    rcases hw : s.workspaces[n]? with _ | w
    · exact ⟨rfl, rfl, hs⟩
    have h2 := w.startSentence_snd length
    have he : w.newSentence.startSentence length = w.startSentence length := rfl
    rw [Option.map_some]
    simp only [he, h2]
    exact ⟨trivial, forgotten_putNewSentence s n w, hs.putWorkspace n Cache.sound_empty⟩
  | fingerprint n d =>
    rw [plainAct, act, workspace_forgotten]
    rcases hw : s.workspaces[n]? with _ | w
    · exact ⟨rfl, rfl, hs⟩
    obtain ⟨h1, h2, h3⟩ :=
      Workspace.fingerprint_spec hD (hs w (List.mem_of_getElem? hw)) (ha d rfl)
    rw [Option.map_some]
    simp only [h1]
    exact ⟨rfl, forgotten_putWorkspace hw h2, hs.putWorkspace n h3⟩
  | makeCell n =>
    rw [plainAct_eq_act rfl, act, act, workspace_forgotten]
    rcases hw : s.workspaces[n]? with _ | w
    · exact ⟨rfl, rfl, hs⟩
    exact ⟨rfl, rfl, hs⟩
  | makeChart n length =>
    rw [plainAct_eq_act rfl, act, act, workspace_forgotten]
    rcases hw : s.workspaces[n]? with _ | w
    · exact ⟨rfl, rfl, hs⟩
    have h2 := Chart.new_snd (κ := κ) w length
    have he : Chart.new (κ := κ) w.newSentence length = Chart.new w length := rfl
    rw [Option.map_some]
    simp only [he]
    rcases hn : Chart.new (κ := κ) w length with ⟨e | chart, w'⟩ <;> rw [hn] at h2 <;> subst h2
    · exact ⟨rfl, forgotten_putNewSentence s n w, hs.putWorkspace n Cache.sound_empty⟩
    · refine ⟨rfl, ?_, hs.putWorkspace n Cache.sound_empty⟩
      exact congrArg (fun s' : Session κ σ => (s'.addChart ⟨n, chart⟩).2)
        (forgotten_putNewSentence s n w)
  | offer place key item => exact offer_spec hD hs key (ha _ rfl) place

/-- **A run is a plain run**, whatever is remembered. -/
theorem run_spec (hD : OwnNumbers D) : ∀ (as : List (Action κ σ)) (s : Session κ σ),
    s.Remembers D → Action.derivations as ⊆ D →
      (s.run as).1 = (s.forgotten.plainRun as).1 ∧
        (s.run as).2.forgotten = (s.forgotten.plainRun as).2
  | [], s, _, _ => ⟨rfl, rfl⟩
  | a :: as, s, hs, has => by
    obtain ⟨ha, hrest⟩ := Action.derivations_cons_subset has
    obtain ⟨h1, h2, h3⟩ := act_spec hD hs ha
    obtain ⟨h4, h5⟩ := run_spec hD as (s.act a).2 h3 hrest
    rw [run, plainRun, ← h1, ← h2, ← h4, ← h5]
    exact ⟨rfl, rfl⟩

/-- The run of a session from its start. -/
theorem run_start (policy : Policy σ) (table : ContributionTable) {as : List (Action κ σ)}
    (h : OwnNumbers (Action.derivations as)) :
    ((start policy table).run as).1 = ((start policy table).plainRun as).1 ∧
      ((start policy table).run as).2.forgotten = ((start policy table).plainRun as).2 :=
  run_spec h as _ (remembers_start _ policy table) (Set.Subset.refl _)

end Offers

end Session

end CategorialChart
