import CategorialChart.Proofs.Cell.Retaken
import CategorialChart.Proofs.Session.Reached

/-! # Sessions with different tables

`Session.retake t` gives a session another table and takes the fingerprints of all its items again.
A plain action does the same before and after that (`plainAct_retake`), if the tables are of one
shape and separate the derivations whose fingerprints were taken. Which these are (`Session.asked`)
does not depend on the table. -/

namespace CategorialChart

open CategorialChart.Derivation (OwnNumbers)

variable {κ σ : Type}

/-! ### Other tables -/

/-- The chart with the fingerprints of its items from a table. -/
def Chart.retake (t : ContributionTable) (c : Chart κ σ) : Chart κ σ :=
  { c with cells := c.cells.map (Cell.retake t) }

/-- What is made of the value. -/
def Owned.map {α β : Type} (f : α → β) (o : Owned α) : Owned β := ⟨o.workspace, f o.value⟩

/-- The workspace with another table, which remembers nothing. -/
def Workspace.withTable (t : ContributionTable) (w : Workspace σ) : Workspace σ :=
  { w with hasher := { table := t } }

/-- The session with another table, and the fingerprints of all items from it. -/
def Session.retake (t : ContributionTable) (s : Session κ σ) : Session κ σ where
  workspaces := s.workspaces.map (Workspace.withTable t)
  cells := s.cells.map (Owned.map (Cell.retake t))
  charts := s.charts.map (Owned.map (Chart.retake t))

/-- The reply without the value of a fingerprint. -/
def Reply.masked : Reply → Reply
  | .fingerprint (some _) => .fingerprint (some 0)
  | r => r

namespace Workspace

variable {t t' : ContributionTable} (h : t.SameShape t') (policy : Policy σ)
include h

theorem startSentence_withTable (length : Nat) :
    (startSentence (withTable t' ⟨policy, { table := t }⟩) length).1 =
      (startSentence ⟨policy, { table := t }⟩ length).1 := by
  unfold startSentence newSentence maxSentenceLength Hasher.clear withTable
  dsimp only
  rw [h.maxLength]
  split <;> rfl

theorem masked_withTable (d : Derivation) :
    (Reply.of .fingerprint ((plainFingerprint (withTable t' ⟨policy, { table := t }⟩) d).mapError
        .fingerprint)).masked =
      (Reply.of .fingerprint ((plainFingerprint ⟨policy, { table := t }⟩ d).mapError
        .fingerprint)).masked := by
  unfold plainFingerprint withTable
  dsimp only
  split
  · rcases failure_cases (h.fingerprint d) with ⟨e, h1, h2⟩ | ⟨f, f', h1, h2⟩
    · rw [h1, h2]
    · rw [h1, h2]
      rfl
  · rfl

theorem new_withTable (length : Nat) :
    (Chart.new (κ := κ) (withTable t' ⟨policy, { table := t }⟩) length).1 =
      (Chart.new ⟨policy, { table := t }⟩ length).1.map (Chart.retake t') := by
  rw [Chart.new_fst, Chart.new_fst, startSentence_withTable h]
  rcases (startSentence ⟨policy, { table := t }⟩ length).1 with e | u
  · rfl
  · simp only [Except.map, Chart.retake, Vector.map_replicate]
    rfl

end Workspace

namespace Chart

variable {t t' : ContributionTable} {c : Chart κ σ} {P : Set Derivation} {limit : Nat} {beam : σ}

/-- All cells of the chart have taken their fingerprints with the table. -/
def Marked (t : ContributionTable) (P : Set Derivation) (limit : Nat) (beam : σ)
    (c : Chart κ σ) : Prop :=
  ∀ cell ∈ c.cells, cell.Marked t P limit beam

theorem marked_new {w : Workspace σ} (hw : w.policy = .nBestHashed limit beam) {length : Nat}
    (h : (Chart.new w length).1 = .ok c) : c.Marked t P limit beam := by
  rw [eq_of_new h]
  intro cell hm
  rw [(Vector.mem_replicate.mp hm).2, Workspace.cell, hw]
  exact Cell.marked_empty t P limit beam

theorem stats_retake (t : ContributionTable) (c : Chart κ σ) : (c.retake t).stats = c.stats := by
  unfold stats retake
  rw [Vector.toList_map, List.foldl_map]
  rfl

theorem cell_retake (t : ContributionTable) (c : Chart κ σ) (span : Span) :
    (c.retake t).cell span = (c.cell span).map (Cell.retake t) := by
  unfold cell retake
  by_cases h : span.Within c.length
  · simp [h, Except.map]
  · simp [h, Except.map]

variable [DecidableEq κ] [LT σ] [DecidableLT σ] [Mul σ]

theorem asks_retake (t : ContributionTable) (c : Chart κ σ) (span : Span) (key : κ)
    (item : Item κ σ) : (c.retake t).asks span key item = c.asks span key item := by
  unfold asks retake
  by_cases h : span.Within c.length
  · simp [h, Cell.asks_retake]
  · simp [h]

theorem cell_of_asks {span : Span} {key : κ} {item : Item κ σ}
    (h : c.asks span key item = true) :
    ∃ cell, c.cell span = .ok cell ∧ cell.asks key item = true := by
  unfold asks at h
  by_cases hspan : span.Within c.length
  · rw [dif_pos hspan] at h
    exact ⟨_, dif_pos hspan, h⟩
  · rw [dif_neg hspan] at h
    cases h

variable [Ord κ]

theorem answer_within {span : Span} (hspan : span.Within c.length)
    (f : Except TermError Fingerprint) (key : κ) (item : Item κ σ) :
    have := Chart.index_lt hspan
    c.answer f span key item = ((c.cells[span.index].answer f key item).1.mapError .fingerprint,
      { c with cells := c.cells.set span.index (c.cells[span.index].answer f key item).2 }) :=
  dif_pos hspan

theorem answer_outside {span : Span} (hspan : ¬ span.Within c.length)
    (f : Except TermError Fingerprint) (key : κ) (item : Item κ σ) :
    c.answer f span key item = (.error (.spanOutOfRange span.start span.stop c.length), c) :=
  dif_neg hspan

/-- **A chart answers alike with another table.** -/
theorem Marked.answer_retake (hc : c.Marked t P limit beam) (h : t.SameShape t')
    (hs : t.Separates P) (hs' : t'.Separates P) (span : Span) (key : κ) {item : Item κ σ}
    (hd : c.asks span key item = true → item.derivation ∈ P) :
    (c.retake t').answer (t'.fingerprint item.derivation) span key item =
      ((c.answer (t.fingerprint item.derivation) span key item).1,
        (c.answer (t.fingerprint item.derivation) span key item).2.retake t') := by
  by_cases hspan : span.Within c.length
  · have hplace := Chart.index_lt hspan
    have hcell := hc c.cells[span.index] (Vector.getElem_mem hplace)
    have hasks : c.cells[span.index].asks key item = true → item.derivation ∈ P := by
      intro ha
      refine hd ?_
      rw [asks, dif_pos hspan]
      exact ha
    have hanswer := hcell.answer_retake h hs hs' key hasks
    rw [answer_within hspan]
    unfold Chart.answer retake
    simp only [dif_pos hspan, Vector.getElem_map, hanswer, Vector.map_set]
  · rw [answer_outside hspan, answer_outside (c := c.retake t') hspan]
    rfl

theorem Marked.answer (hc : c.Marked t P limit beam) (hs : t.Separates P) (span : Span) (key : κ)
    {item : Item κ σ} (hd : c.asks span key item = true → item.derivation ∈ P) :
    (c.answer (t.fingerprint item.derivation) span key item).2.Marked t P limit beam := by
  by_cases hspan : span.Within c.length
  · have hplace := Chart.index_lt hspan
    rw [answer_within hspan]
    intro cell hm
    rcases @Vector.mem_or_eq_of_mem_set _ _ _ _ _ _ hplace hm with hm | rfl
    · exact hc cell hm
    · refine (hc _ (Vector.getElem_mem hplace)).answer hs key fun ha => hd ?_
      rw [asks, dif_pos hspan]
      exact ha
  · rw [answer_outside hspan]
    exact hc

end Chart

namespace Session

variable {t t' : ContributionTable} {P : Set Derivation} {limit : Nat} {beam : σ}
  {s s' : Session κ σ} {w : Workspace σ}

/-- All cells and charts have taken their fingerprints with the table. -/
structure Marked (t : ContributionTable) (P : Set Derivation) (limit : Nat) (beam : σ)
    (s : Session κ σ) : Prop where
  cells : ∀ o ∈ s.cells, o.value.Marked t P limit beam
  charts : ∀ o ∈ s.charts, o.value.Marked t P limit beam

theorem Uniform.retake (hu : s.Uniform w) (t : ContributionTable) :
    (s.retake t).Uniform (w.withTable t) where
  alike v hv := by
    obtain ⟨v', hv', rfl⟩ := List.mem_map.mp hv
    rw [hu.alike v' hv']
  pos := by
    rw [Session.retake, List.length_map]
    exact hu.pos
  cells c hc := by
    obtain ⟨c', hc', rfl⟩ := List.mem_map.mp hc
    rw [Session.retake, List.length_map]
    exact hu.cells c' hc'
  charts c hc := by
    obtain ⟨c', hc', rfl⟩ := List.mem_map.mp hc
    rw [Session.retake, List.length_map]
    exact hu.charts c' hc'

theorem cell?_retake (t : ContributionTable) (s : Session κ σ) (place : Place) :
    (s.retake t).cell? place = (s.cell? place).map (Except.map (Cell.retake t)) := by
  cases place with
  | cell n =>
    unfold cell? retake
    rcases h : s.cells[n]? with _ | o <;> simp [h, Owned.map, Except.map]
  | span n span =>
    unfold cell? retake
    rcases h : s.charts[n]? with _ | o <;> simp [h, Owned.map, Chart.cell_retake]

section Offers
variable [DecidableEq κ] [LT σ] [DecidableLT σ] [Mul σ]

/-- **The derivation whose fingerprint an action takes.** -/
def asked (s : Session κ σ) : Action κ σ → Option Derivation
  | .fingerprint n derivation =>
    match s.workspaces[n]? with
    | some w => if w.policy.has .structuralDedup then some derivation else none
    | none => none
  | .offer place key item =>
    match s.cell? place with
    | some (.ok c) => if c.asks key item then some item.derivation else none
    | _ => none
  | _ => none

theorem derivation?_of_asked {a : Action κ σ} {d : Derivation} (h : s.asked a = some d) :
    a.derivation? = some d := by
  cases a with
  | fingerprint n e =>
    rw [asked] at h
    split at h
    · split at h
      · exact h
      · cases h
    · cases h
  | offer place key item =>
    rw [asked] at h
    split at h
    · split at h
      · exact h
      · cases h
    · cases h
  | _ => cases h

theorem asked_forgotten (s : Session κ σ) (a : Action κ σ) : s.forgotten.asked a = s.asked a := by
  cases a with
  | fingerprint n d =>
    rw [asked, asked, workspace_forgotten]
    rcases s.workspaces[n]? with _ | w <;> rfl
  | offer place key item => rw [asked, asked, cell?_forgotten]
  | _ => rfl

theorem asked_retake (t : ContributionTable) (s : Session κ σ) (a : Action κ σ) :
    (s.retake t).asked a = s.asked a := by
  cases a with
  | fingerprint n d =>
    have hw : (s.retake t).workspaces[n]? = s.workspaces[n]?.map (Workspace.withTable t) :=
      List.getElem?_map
    rw [asked, asked, hw]
    rcases s.workspaces[n]? with _ | w <;> rfl
  | offer place key item =>
    rw [asked, asked, cell?_retake]
    rcases s.cell? place with _ | e | c
    · rfl
    · rfl
    · simp [Except.map, Cell.asks_retake]
  | _ => rfl

variable [Ord κ]

/-- **The derivations whose fingerprints a run takes**, in order. -/
def taken (s : Session κ σ) : List (Action κ σ) → List Derivation
  | [] => []
  | a :: as => (s.asked a).toList ++ (s.act a).2.taken as

/-! ### Plain actions -/

theorem plainOffer_cell (hu : s.Uniform w) {n : Nat} {o : Owned (Cell κ σ)}
    (ho : s.cells[n]? = some o) (key : κ) (item : Item κ σ) :
    s.plainOffer key item (.cell n) =
      (.of .retained ((o.value.answer (w.hasher.table.fingerprint item.derivation) key
          item).1.mapError .fingerprint),
        s.putCell n { o with
          value := (o.value.answer (w.hasher.table.fingerprint item.derivation) key item).2 }) := by
  rw [plainOffer, hu.cellInUse?, ho]
  rfl

theorem plainOffer_chart (hu : s.Uniform w) {n : Nat} {o : Owned (Chart κ σ)}
    (ho : s.charts[n]? = some o) (span : Span) (key : κ) (item : Item κ σ) :
    s.plainOffer key item (.span n span) =
      (.of .retained (o.value.answer (w.hasher.table.fingerprint item.derivation) span key item).1,
        s.putChart n { o with value :=
          (o.value.answer (w.hasher.table.fingerprint item.derivation) span key item).2 }) := by
  rw [plainOffer, hu.chartInUse?, ho]
  rfl

omit [DecidableEq κ] [Ord κ] [LT σ] [DecidableLT σ] [Mul σ] in
theorem putCell_retake (t : ContributionTable) (s : Session κ σ) (n : Nat) (o : Owned (Cell κ σ)) :
    (s.retake t).putCell n (o.map (Cell.retake t)) = (s.putCell n o).retake t := by
  unfold putCell retake
  rw [List.map_set]

omit [DecidableEq κ] [Ord κ] [LT σ] [DecidableLT σ] [Mul σ] in
theorem putChart_retake (t : ContributionTable) (s : Session κ σ) (n : Nat)
    (o : Owned (Chart κ σ)) :
    (s.retake t).putChart n (o.map (Chart.retake t)) = (s.putChart n o).retake t := by
  unfold putChart retake
  rw [List.map_set]

theorem plainOffer_retake (hu : s.Uniform ⟨.nBestHashed limit beam, { table := t }⟩)
    (hs : s.Marked t P limit beam) (h : t.SameShape t') (hsep : t.Separates P)
    (hsep' : t'.Separates P) (key : κ) {item : Item κ σ} {place : Place}
    (hd : ∀ d ∈ s.asked (.offer place key item), d ∈ P) :
    (s.retake t').plainOffer key item place =
        ((s.plainOffer key item place).1, (s.plainOffer key item place).2.retake t') ∧
      (s.plainOffer key item place).2.Marked t P limit beam := by
  have hu' := hu.retake t'
  cases place with
  | cell n =>
    have hget : (s.retake t').cells[n]? = s.cells[n]?.map (Owned.map (Cell.retake t')) :=
      List.getElem?_map
    rcases ho : s.cells[n]? with _ | o <;> rw [ho] at hget
    · rw [plainOffer, plainOffer, hu.cellInUse?, hu'.cellInUse?, hget, ho]
      exact ⟨rfl, hs⟩
    have hcell := hs.cells o (List.mem_of_getElem? ho)
    have hasks : o.value.asks key item = true → item.derivation ∈ P := by
      intro ha
      refine hd _ ?_
      simp [asked, cell?, ho, ha]
    have hanswer := hcell.answer_retake h hsep hsep' key hasks
    rw [plainOffer_cell hu ho, plainOffer_cell hu' hget]
    have hown : (o.map (Cell.retake t')).value.answer
        ((Workspace.withTable t' ⟨.nBestHashed limit beam, { table := t }⟩).hasher.table.fingerprint
          item.derivation) key item = _ := hanswer
    rw [hown]
    refine ⟨?_, ?_⟩
    · rw [← putCell_retake]
      rfl
    · refine ⟨fun o' ho' => ?_, hs.charts⟩
      rcases List.mem_or_eq_of_mem_set ho' with ho' | rfl
      · exact hs.cells o' ho'
      · exact hcell.answer hsep key hasks
  | span n span =>
    have hget : (s.retake t').charts[n]? = s.charts[n]?.map (Owned.map (Chart.retake t')) :=
      List.getElem?_map
    rcases ho : s.charts[n]? with _ | o <;> rw [ho] at hget
    · rw [plainOffer, plainOffer, hu.chartInUse?, hu'.chartInUse?, hget, ho]
      exact ⟨rfl, hs⟩
    have hchart := hs.charts o (List.mem_of_getElem? ho)
    have hasks : o.value.asks span key item = true → item.derivation ∈ P := by
      intro ha
      obtain ⟨cell, hcell, hcellAsks⟩ := Chart.cell_of_asks ha
      refine hd _ ?_
      simp [asked, cell?_span ho, hcell, hcellAsks]
    have hanswer := hchart.answer_retake h hsep hsep' span key hasks
    rw [plainOffer_chart hu ho, plainOffer_chart hu' hget]
    have hown : (o.map (Chart.retake t')).value.answer
        ((Workspace.withTable t' ⟨.nBestHashed limit beam, { table := t }⟩).hasher.table.fingerprint
          item.derivation) span key item = _ := hanswer
    rw [hown]
    refine ⟨?_, ?_⟩
    · rw [← putChart_retake]
      rfl
    · refine ⟨hs.cells, fun o' ho' => ?_⟩
      rcases List.mem_or_eq_of_mem_set ho' with ho' | rfl
      · exact hs.charts o' ho'
      · exact hchart.answer hsep span key hasks

/-- **A plain action is answered alike with another table**, but for the value of a fingerprint. -/
theorem plainAct_retake (hu : s.Uniform ⟨.nBestHashed limit beam, { table := t }⟩)
    (hs : s.Marked t P limit beam) (h : t.SameShape t') (hsep : t.Separates P)
    (hsep' : t'.Separates P) {a : Action κ σ} (hd : ∀ d ∈ s.asked a, d ∈ P) :
    ((s.retake t').plainAct a).1.masked = (s.plainAct a).1.masked ∧
      ((s.retake t').plainAct a).2 = (s.plainAct a).2.retake t' ∧
      (s.plainAct a).2.Marked t P limit beam := by
  have hu' := hu.retake t'
  have hlength : (s.retake t').workspaces.length = s.workspaces.length := List.length_map _
  by_cases ha : ∀ n ∈ a.workspace?, n < s.workspaces.length
  · have ha' : ∀ n ∈ a.workspace?, n < (s.retake t').workspaces.length := by
      rw [hlength]
      exact ha
    rw [plainAct_eq_actIn rfl hu ha, plainAct_eq_actIn rfl hu' ha']
    cases a with
    | fork n =>
      rw [actIn, actIn, addWorkspace, addWorkspace, hlength]
      refine ⟨rfl, ?_, hs.cells, hs.charts⟩
      simp [retake, Workspace.withTable]
    | newSentence n => exact ⟨rfl, rfl, hs⟩
    | startSentence n length =>
      rw [actIn, actIn, Workspace.startSentence_withTable h]
      exact ⟨rfl, rfl, hs⟩
    | fingerprint n d => exact ⟨Workspace.masked_withTable h _ d, rfl, hs⟩
    | makeCell n =>
      rw [actIn, actIn, addCell, addCell]
      refine ⟨?_, ?_, fun o ho => ?_, hs.charts⟩
      · simp [retake]
      · simp [retake, Owned.map, Workspace.cell, Cell.retake, Workspace.withTable]
      · rcases List.mem_append.mp ho with ho | ho
        · exact hs.cells o ho
        · rw [List.mem_singleton.mp ho]
          exact Cell.marked_empty t P limit beam
    | makeChart n length =>
      rw [actIn, actIn, Workspace.new_withTable h]
      rcases hnew : (Chart.new (κ := κ) ⟨.nBestHashed limit beam, { table := t }⟩ length).1 with
        e | chart
      · exact ⟨rfl, rfl, hs⟩
      refine ⟨?_, ?_, hs.cells, fun o ho => ?_⟩
      · simp [retake, Except.map, addChart]
      · simp [retake, Except.map, addChart, Owned.map]
      · rcases List.mem_append.mp ho with ho | ho
        · exact hs.charts o ho
        · rw [List.mem_singleton.mp ho]
          exact Chart.marked_new rfl hnew
    | offer place key item =>
      obtain ⟨h1, h2⟩ := plainOffer_retake hu hs h hsep hsep' key hd
      rw [actIn, actIn, h1]
      exact ⟨rfl, rfl, h2⟩
  · push Not at ha
    obtain ⟨n, hn, hlt⟩ := ha
    have hmissing := plainAct_of_missing (s := s) hn (List.getElem?_eq_none hlt)
    have hmissing' := plainAct_of_missing (s := s.retake t') hn
      (List.getElem?_eq_none (by rw [hlength]; exact hlt))
    rw [hmissing, hmissing']
    exact ⟨rfl, rfl, hs⟩

end Offers

end Session

end CategorialChart
