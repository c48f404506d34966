import CategorialChart.Proofs.Session.Tables

/-! # Runs with different tables

Two sessions with tables of one shape are `Twins` if they differ in the values of fingerprints only.
Then they remember the same nodes, although not the same of them. One action of both leads to twins
again (`Twins.act`), as long as the tables separate the derivations whose fingerprints are taken,
and so does a run (`Twins.run`). So the random words of a table play no part in a run
(`tables_interchangeable`). -/

namespace CategorialChart

open CategorialChart.Derivation (OwnNumbers)

variable {κ σ : Type}

namespace Session

variable {t t' : ContributionTable} {D P : Set Derivation} {limit : Nat} {beam : σ}
  {s s' : Session κ σ} {w : Workspace σ}

/-- **What a session shows**: what the cells show, the counters of the charts, and the numbers of
nodes that are remembered. -/
def shown [DecidableEq κ] (s : Session κ σ) :
    (Place → Option (Except ChartError (List (Item κ σ) × (κ → List (Item κ σ)) × Nat × Stats))) ×
      List (Nat × Stats) × List Nat :=
  (fun place => (s.cell? place).map (Except.map Cell.shown),
    s.charts.map fun o => (o.value.length, o.value.stats),
    s.workspaces.map fun w => w.hasher.cached)

/-! ### What is remembered -/

/-- The numbers of the nodes that each workspace remembers. -/
def remembered (s : Session κ σ) : List (Set Nat) :=
  s.workspaces.map fun w => {i | i ∈ w.hasher.cache}

theorem remembered_putWorkspace (s : Session κ σ) (n : Nat) (w : Workspace σ) :
    (s.putWorkspace n w).remembered = s.remembered.set n {i | i ∈ w.hasher.cache} := by
  unfold remembered putWorkspace
  rw [List.map_set]

/-- **Sessions that differ in the values of fingerprints** that were taken of derivations in `P`,
with the tables `t` and `t'`. -/
structure Twins (t t' : ContributionTable) (D P : Set Derivation) (limit : Nat) (beam : σ)
    (s s' : Session κ σ) : Prop where
  uniform : s.forgotten.Uniform ⟨.nBestHashed limit beam, { table := t }⟩
  marked : s.forgotten.Marked t P limit beam
  retaken : s'.forgotten = s.forgotten.retake t'
  remembers : s.Remembers D
  remembers' : s'.Remembers D
  remembered : s.remembered = s'.remembered

namespace Twins

theorem workspace (hT : Twins t t' D P limit beam s s') (n : Nat) :
    (s.workspaces[n]? = none ∧ s'.workspaces[n]? = none) ∨
      ∃ c c' : Cache, c.SameNodes c' ∧
        s.workspaces[n]? = some ⟨.nBestHashed limit beam, ⟨t, c⟩⟩ ∧
        s'.workspaces[n]? = some ⟨.nBestHashed limit beam, ⟨t', c'⟩⟩ := by
  have hforgotten : (s'.workspaces[n]?).map Workspace.newSentence =
      (s.workspaces[n]?.map Workspace.newSentence).map (Workspace.withTable t') := by
    have h := congrArg (fun v : Session κ σ => v.workspaces[n]?) hT.retaken
    simpa only [retake, forgotten, List.getElem?_map] using h
  have hremembered : (s.workspaces[n]?).map (fun w => {i | i ∈ w.hasher.cache}) =
      (s'.workspaces[n]?).map fun w => {i | i ∈ w.hasher.cache} := by
    rw [← List.getElem?_map, ← List.getElem?_map]
    exact congrArg (·[n]?) hT.remembered
  rcases hw : s.workspaces[n]? with _ | ⟨p, u, c⟩ <;>
    rcases hw' : s'.workspaces[n]? with _ | ⟨p', u', c'⟩ <;>
      rw [hw, hw'] at hforgotten hremembered
  · exact Or.inl ⟨rfl, rfl⟩
  · cases hforgotten
  · cases hforgotten
  have hmem : Workspace.newSentence ⟨p, u, c⟩ ∈ s.forgotten.workspaces :=
    List.mem_map_of_mem (List.mem_of_getElem? hw)
  cases hT.uniform.alike _ hmem
  cases hforgotten
  exact Or.inr ⟨c, c', fun i => iff_of_eq (congrFun (Option.some.inj hremembered) i), rfl, rfl⟩

theorem cell (hT : Twins t t' D P limit beam s s') (n : Nat) :
    s'.cells[n]? = s.cells[n]?.map (Owned.map (Cell.retake t')) := by
  have h : s'.cells = s.cells.map (Owned.map (Cell.retake t')) := congrArg Session.cells hT.retaken
  rw [h, List.getElem?_map]

theorem chart (hT : Twins t t' D P limit beam s s') (n : Nat) :
    s'.charts[n]? = s.charts[n]?.map (Owned.map (Chart.retake t')) := by
  have h : s'.charts = s.charts.map (Owned.map (Chart.retake t')) :=
    congrArg Session.charts hT.retaken
  rw [h, List.getElem?_map]

end Twins

section Offers
variable [DecidableEq κ] [Ord κ] [LT σ] [DecidableLT σ] [Mul σ]

/-! ### What an action remembers -/

theorem remembered_makeChart {n : Nat} (hw : s.workspaces[n]? = some w) (length : Nat) :
    (s.act (.makeChart n length)).2.remembered = (s.putWorkspace n w.newSentence).remembered := by
  have hsnd := Chart.new_snd (κ := κ) w length
  rw [act, hw]
  dsimp only
  rcases hnew : Chart.new (κ := κ) w length with ⟨e | chart, w'⟩ <;> rw [hnew] at hsnd <;>
    subst hsnd <;> rfl

theorem remembered_offer_cell {n : Nat} {o : Owned (Cell κ σ)} (ho : s.cells[n]? = some o)
    (hw : s.workspaces[o.workspace]? = some w) (key : κ) (item : Item κ σ) :
    (s.offer key item (.cell n)).2.remembered = (s.putWorkspace o.workspace { w with
      hasher := if o.value.asks key item then (w.hasher.fingerprint item.derivation).2
        else w.hasher }).remembered := by
  rw [← putHasher_eq hw, offer]
  simp only [cellInUse?, ho, hw, Option.bind_eq_bind, Option.bind_some, Option.pure_def,
    Cell.offer_eq]
  rfl

theorem remembered_offer_chart {n : Nat} {o : Owned (Chart κ σ)} (ho : s.charts[n]? = some o)
    (hw : s.workspaces[o.workspace]? = some w) (span : Span) (key : κ) (item : Item κ σ) :
    (s.offer key item (.span n span)).2.remembered = (s.putWorkspace o.workspace { w with
      hasher := if o.value.asks span key item then (w.hasher.fingerprint item.derivation).2
        else w.hasher }).remembered := by
  rw [← putHasher_eq hw, offer]
  simp only [chartInUse?, ho, hw, Option.bind_eq_bind, Option.bind_some, Option.pure_def,
    Chart.offer_eq]
  rfl

namespace Twins

omit [DecidableEq κ] [Ord κ] [LT σ] [DecidableLT σ] [Mul σ] in
theorem remembered_put (hT : Twins t t' D P limit beam s s') (n : Nat) {w w' : Workspace σ}
    (hw : w.hasher.cache.SameNodes w'.hasher.cache) :
    (s.putWorkspace n w).remembered = (s'.putWorkspace n w').remembered := by
  have hcache : {i | i ∈ w.hasher.cache} = {i | i ∈ w'.hasher.cache} := Set.ext hw
  rw [remembered_putWorkspace, remembered_putWorkspace, hT.remembered, hcache]

theorem remembered_offer (hT : Twins t t' D P limit beam s s') (h : t.SameShape t') (key : κ)
    (item : Item κ σ) (place : Place) :
    (s.offer key item place).2.remembered = (s'.offer key item place).2.remembered := by
  -- hashers that remember the same nodes do so after a fingerprint was taken, or was not
  have hused : ∀ {c c' : Cache}, c.SameNodes c' → ∀ b : Bool, Cache.SameNodes
      (if b then (Hasher.fingerprint ⟨t, c⟩ item.derivation).2 else ⟨t, c⟩ : Hasher).cache
      (if b then (Hasher.fingerprint ⟨t', c'⟩ item.derivation).2 else ⟨t', c'⟩ : Hasher).cache := by
    intro c c' hc b
    cases b with
    | false => exact hc
    | true => exact (h.visit item.derivation hc).2
  cases place with
  | cell n =>
    have hcell := hT.cell n
    rcases ho : s.cells[n]? with _ | o <;> rw [ho] at hcell
    · rw [offer, offer, cellInUse?, cellInUse?, ho, hcell]
      exact hT.remembered
    rcases hT.workspace o.workspace with ⟨hw, hw'⟩ | ⟨c, c', hc, hw, hw'⟩
    · simp [offer, cellInUse?, ho, hcell, hw, hw', Owned.map, hT.remembered]
    · rw [remembered_offer_cell ho hw, remembered_offer_cell hcell hw', Owned.map,
        Cell.asks_retake]
      exact hT.remembered_put o.workspace (hused hc _)
  | span n span =>
    have hchart := hT.chart n
    rcases ho : s.charts[n]? with _ | o <;> rw [ho] at hchart
    · rw [offer, offer, chartInUse?, chartInUse?, ho, hchart]
      exact hT.remembered
    rcases hT.workspace o.workspace with ⟨hw, hw'⟩ | ⟨c, c', hc, hw, hw'⟩
    · simp [offer, chartInUse?, ho, hchart, hw, hw', Owned.map, hT.remembered]
    · rw [remembered_offer_chart ho hw, remembered_offer_chart hchart hw', Owned.map,
        Chart.asks_retake]
      exact hT.remembered_put o.workspace (hused hc _)

theorem remembered_act (hT : Twins t t' D P limit beam s s') (h : t.SameShape t')
    (a : Action κ σ) : (s.act a).2.remembered = (s'.act a).2.remembered := by
  cases a with
  | fork n =>
    rw [act, act]
    rcases hT.workspace n with ⟨hw, hw'⟩ | ⟨c, c', -, hw, hw'⟩ <;> rw [hw, hw']
    · exact hT.remembered
    · have hlast : ∀ v : Session κ σ, ∀ w, (v.addWorkspace (Workspace.fork w)).2.remembered =
          v.remembered ++ [{i | i ∈ (∅ : Cache)}] := fun v w => List.map_append
      dsimp only
      rw [hlast, hlast, hT.remembered]
  | newSentence n =>
    rw [act, act]
    rcases hT.workspace n with ⟨hw, hw'⟩ | ⟨c, c', -, hw, hw'⟩ <;> rw [hw, hw']
    · exact hT.remembered
    · exact hT.remembered_put n fun i => Iff.rfl
  | startSentence n length =>
    rw [act, act]
    rcases hT.workspace n with ⟨hw, hw'⟩ | ⟨c, c', -, hw, hw'⟩ <;> rw [hw, hw']
    · exact hT.remembered
    · dsimp only
      rw [Workspace.startSentence_snd, Workspace.startSentence_snd]
      exact hT.remembered_put n fun i => Iff.rfl
  | fingerprint n d =>
    rw [act, act]
    rcases hT.workspace n with ⟨hw, hw'⟩ | ⟨c, c', hc, hw, hw'⟩ <;> rw [hw, hw']
    · exact hT.remembered
    · exact hT.remembered_put n (h.visit d hc).2
  | makeCell n =>
    rw [act, act]
    rcases hT.workspace n with ⟨hw, hw'⟩ | ⟨c, c', -, hw, hw'⟩ <;> rw [hw, hw'] <;>
      exact hT.remembered
  | makeChart n length =>
    rcases hT.workspace n with ⟨hw, hw'⟩ | ⟨c, c', -, hw, hw'⟩
    · rw [act, act, hw, hw']
      exact hT.remembered
    · rw [remembered_makeChart hw, remembered_makeChart hw']
      exact hT.remembered_put n fun i => Iff.rfl
  | offer place key item => exact hT.remembered_offer h key item place

/-! ### Steps and runs -/

omit [Ord κ] in
theorem asked (hT : Twins t t' D P limit beam s s') (a : Action κ σ) : s'.asked a = s.asked a := by
  rw [← asked_forgotten, hT.retaken, asked_retake, asked_forgotten]

/-- **Twins act alike**, and are twins afterwards. -/
theorem act (hT : Twins t t' D P limit beam s s') (hD : OwnNumbers D) (h : t.SameShape t')
    (hs : t.Separates P) (hs' : t'.Separates P) {a : Action κ σ} (ha : ∀ d ∈ a.derivation?, d ∈ D)
    (hP : ∀ d ∈ s.asked a, d ∈ P) :
    (s'.act a).1.masked = (s.act a).1.masked ∧
      Twins t t' D P limit beam (s.act a).2 (s'.act a).2 := by
  obtain ⟨h1, h2, h3⟩ := act_spec hD hT.remembers ha
  obtain ⟨h1', h2', h3'⟩ := act_spec hD hT.remembers' ha
  have hP' : ∀ d ∈ s.forgotten.asked a, d ∈ P := by
    rw [asked_forgotten]
    exact hP
  obtain ⟨h4, h5, h6⟩ := plainAct_retake hT.uniform hT.marked h hs hs' hP'
  rw [hT.retaken] at h1' h2'
  refine ⟨by rw [h1, h1', h4], ?_, ?_, ?_, h3, h3', hT.remembered_act h a⟩
  · rw [h2]
    exact hT.uniform.plainAct rfl a
  · rw [h2]
    exact h6
  · rw [h2, h2', h5]

/-- **Twins run alike**, if both tables separate what the two runs take fingerprints of. -/
theorem run (hD : OwnNumbers D) (h : t.SameShape t') (hs : t.Separates P) (hs' : t'.Separates P) :
    ∀ (as : List (Action κ σ)) {s s' : Session κ σ}, Twins t t' D P limit beam s s' →
      Action.derivations as ⊆ D → (∀ d ∈ s.taken as, d ∈ s'.taken as → d ∈ P) →
        (s'.run as).1.map Reply.masked = (s.run as).1.map Reply.masked ∧
          Twins t t' D P limit beam (s.run as).2 (s'.run as).2
  | [], _, _, hT, _, _ => ⟨rfl, hT⟩
  | a :: as, s, s', hT, has, hP => by
    obtain ⟨ha, hrest⟩ := Action.derivations_cons_subset has
    have hasked : ∀ d ∈ s.asked a, d ∈ P := by
      intro d hd
      refine hP d (List.mem_append_left _ ?_) (List.mem_append_left _ ?_)
      · exact Option.mem_toList.mpr hd
      · rw [hT.asked]
        exact Option.mem_toList.mpr hd
    obtain ⟨hreply, hT'⟩ := hT.act hD h hs hs' ha hasked
    obtain ⟨hreplies, hlast⟩ := run hD h hs hs' as hT' hrest fun d hd hd' =>
      hP d (List.mem_append_right _ hd) (List.mem_append_right _ hd')
    rw [Session.run, Session.run]
    refine ⟨?_, hlast⟩
    dsimp only
    rw [List.map_cons, List.map_cons, hreply, hreplies]

omit [Ord κ] [LT σ] [DecidableLT σ] [Mul σ] in
/-- **Twins show the same.** -/
theorem shown (hT : Twins t t' D P limit beam s s') : s'.shown = s.shown := by
  have hcells : ∀ place, s'.cell? place = (s.cell? place).map (Except.map (Cell.retake t')) := by
    intro place
    rw [← cell?_forgotten, hT.retaken, cell?_retake, cell?_forgotten]
  have hcharts : s'.charts = s.charts.map (Owned.map (Chart.retake t')) :=
    congrArg Session.charts hT.retaken
  have hcached : s'.workspaces.map (fun w => w.hasher.cached) =
      s.workspaces.map fun w => w.hasher.cached := by
    refine List.ext_getElem? fun n => ?_
    rw [List.getElem?_map, List.getElem?_map]
    rcases hT.workspace n with ⟨hw, hw'⟩ | ⟨c, c', hc, hw, hw'⟩
    · rw [hw, hw']
    · rw [hw, hw']
      exact congrArg some hc.size.symm
  unfold Session.shown
  refine Prod.ext (funext fun place => ?_) (Prod.ext ?_ hcached)
  · dsimp only
    rw [hcells]
    rcases s.cell? place with _ | e | c
    · rfl
    · rfl
    · exact congrArg (fun x => some (Except.ok x)) (Cell.shown_retake t' c)
  · dsimp only
    rw [hcharts, List.map_map]
    exact List.map_congr_left fun o _ => congrArg (Prod.mk o.value.length) (o.value.stats_retake t')

end Twins

omit [DecidableEq κ] [Ord κ] [LT σ] [DecidableLT σ] [Mul σ] in
theorem twins_start (t t' : ContributionTable) (D P : Set Derivation) (limit : Nat) (beam : σ) :
    Twins t t' D P limit beam (start (κ := κ) (.nBestHashed limit beam) t)
      (start (.nBestHashed limit beam) t') where
  uniform := uniform_start (.nBestHashed limit beam) t
  marked := ⟨nofun, nofun⟩
  retaken := rfl
  remembers := remembers_start D (.nBestHashed limit beam) t
  remembers' := remembers_start D (.nBestHashed limit beam) t'
  remembered := rfl

theorem taken_append (bs : List (Action κ σ)) : ∀ (as : List (Action κ σ)) (s : Session κ σ),
    s.taken (as ++ bs) = s.taken as ++ (s.run as).2.taken bs
  | [], _ => rfl
  | a :: as, s => by
    rw [List.cons_append, taken, taken, taken_append bs as, List.append_assoc]
    rfl

theorem mem_derivations_of_taken {d : Derivation} : ∀ (as : List (Action κ σ)) {s : Session κ σ},
    d ∈ s.taken as → d ∈ Action.derivations as
  | [], _, h => by cases h
  | a :: as, s, h => by
    rcases List.mem_append.mp h with h | h
    · refine List.mem_filterMap.mpr ⟨a, List.mem_cons_self, ?_⟩
      exact derivation?_of_asked (Option.mem_toList.mp h)
    · exact Action.derivations_mono (List.subset_cons_self a as) (mem_derivations_of_taken as h)

/-- **The random words of a table play no part in a run**, but for collisions. Two tables for the
same categories and the same greatest length give the same replies, apart from the values of
fingerprints, and after each action everything shown is the same. It is enough that each table
separates the derivations whose fingerprints its own run takes. -/
theorem tables_interchangeable (limit : Nat) (beam : σ) (stream stream' : Nat → UInt64)
    (maxLength : Nat) (categories : List Category) {as : List (Action κ σ)}
    (own : OwnNumbers (Action.derivations as)) :
    let t := ContributionTable.build stream maxLength categories
    let t' := ContributionTable.build stream' maxLength categories
    let s : Session κ σ := start (.nBestHashed limit beam) t
    let s' : Session κ σ := start (.nBestHashed limit beam) t'
    t.Separates {d | d ∈ s.taken as} → t'.Separates {d | d ∈ s'.taken as} →
      (s'.run as).1.map Reply.masked = (s.run as).1.map Reply.masked ∧
        ∀ bs, bs <+: as → (s'.run bs).2.shown = (s.run bs).2.shown := by
  intro t t' s s' hs hs'
  -- what both runs take fingerprints of is separated by both tables
  let P : Set Derivation := {d | d ∈ s.taken as} ∩ {d | d ∈ s'.taken as}
  have hP : t.Separates P := hs.mono Set.inter_subset_left
  have hP' : t'.Separates P := hs'.mono Set.inter_subset_right
  have h : t.SameShape t' := .build stream stream' maxLength categories
  have hT : Twins t t' (Action.derivations as) P limit beam s s' := twins_start t t' _ P limit beam
  refine ⟨(Twins.run own h hP hP' as hT Set.Subset.rfl fun d hd hd' => ⟨hd, hd'⟩).1, ?_⟩
  rintro bs ⟨cs, rfl⟩
  refine (Twins.run own h hP hP' bs hT ?_ fun d hd hd' => ?_).2.shown
  · exact Action.derivations_mono (List.subset_append_left bs cs)
  · refine ⟨?_, ?_⟩
    · exact (taken_append cs bs s).symm ▸ List.mem_append_left _ hd
    · exact (taken_append cs bs s').symm ▸ List.mem_append_left _ hd'

end Offers

end Session

namespace Forest

/-- A table of the same shape as the other, with other words. -/
def otherTable : ContributionTable := .build (fun i => UInt64.ofNat (7 * i + 3)) 4 [determiner]

theorem separates_forest {t : ContributionTable} (ht : t ∈ [table, otherTable]) :
    t.Separates {paired, raised, twice, once} := by
  have hne : ∀ t ∈ [table, otherTable], ∀ d ∈ [paired, raised, twice, once],
      ∀ e ∈ [paired, raised, twice, once], d.oddTerms ≠ e.oddTerms →
        (t.fingerprint d).toOption ≠ (t.fingerprint e).toOption := by decide
  intro d hd e he hodd f hf hf'
  refine hne t ht d (by simpa using hd) e (by simpa using he) hodd ?_
  rw [hf, hf']

end Forest

open Forest in
/-- Offers to one cell with two tables that give one node different fingerprints. -/
theorem Session.tables_interchangeable_forest :
    table.fingerprint once ≠ otherTable.fingerprint once ∧
      let s : Session Nat Nat := start (.nBestHashed 1 1) table
      let s' : Session Nat Nat := start (.nBestHashed 1 1) otherTable
      (s'.run offering).1.map Reply.masked = (s.run offering).1.map Reply.masked ∧
        (s'.run offering).2.shown = (s.run offering).2.shown := by
  refine ⟨by decide, ?_⟩
  intro s s'
  have hs : ∀ t ∈ [table, otherTable], t.Separates
      {d | d ∈ (start (.nBestHashed 1 1) t : Session Nat Nat).taken offering} := fun t ht =>
    (separates_forest ht).mono fun d hd => offering_subset (mem_derivations_of_taken offering hd)
  obtain ⟨hreplies, hshown⟩ := tables_interchangeable (κ := Nat) 1 1 _ _ 4 [determiner] own_offering
    (hs table (by simp)) (hs otherTable (by simp))
  exact ⟨hreplies, hshown offering List.prefix_rfl⟩

end CategorialChart
