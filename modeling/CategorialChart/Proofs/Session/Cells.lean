import CategorialChart.Proofs.Session.Requests
import Mathlib.Data.List.Induction

/-! # The history of a cell

The cells of a session change by nothing but the offers made to them: other cells, other spans of
the same chart, the ends of sentences and the forks leave a cell as it is. So what can be said of
one cell and the offers that it has answered (`Action.answered`), from the empty cell on, holds of
each cell of a session and its part of the run (`Tracked.plainRun`).

* `Span.index_inj`: spans of a sentence with the same place in the triangle are equal.
* `Chart.Follows`: the cells of a chart have one policy, whatever is offered to it.
* `plainOffer_here`, `plainOffer_elsewhere`, `plainOffer_missing`: an offer to the cell at a place,
  at another place, and at a place without a cell.
* `Tracked.plainAct`, `Tracked.plainRun`: one action, and a run.
-/

namespace CategorialChart

theorem Span.index_inj {s s' : Span} (hs : s.start < s.stop) (hs' : s'.start < s'.stop)
    (h : s.index = s'.index) : s = s' := by
  -- the triangle up to one end lies before every span with a greater end
  have before : ∀ {u v : Span}, u.start < u.stop → v.start < v.stop → u.stop < v.stop →
      u.index < v.index := by
    intro u v hu hv huv
    have h1 := Span.index_lt (s := u) ⟨hu, le_refl u.stop⟩
    have h2 : spanCount u.stop ≤ spanCount (v.stop - 1) := spanCount_mono (by omega)
    rw [Span.index_eq hv]
    omega
  have hstop : s.stop = s'.stop := by
    rcases Nat.lt_trichotomy s.stop s'.stop with hlt | heq | hgt
    · exact absurd h (before hs hs' hlt).ne
    · exact heq
    · exact absurd h (before hs' hs hgt).ne'
  rw [Span.index_eq hs, Span.index_eq hs', hstop] at h
  cases s
  cases s'
  simp only [Span.mk.injEq]
  exact ⟨Nat.add_left_cancel h, hstop⟩

variable {κ σ : Type}

/-- **An answered offer to a place**: its key and its item, and whether the item is retained. Offers
whose fingerprint cannot be taken are not answered. -/
def Action.answered (place : Place) : Action κ σ × Reply → Option ((κ × Item κ σ) × Bool)
  | (.offer p key item, .retained b) => if p = place then some ((key, item), b) else none
  | _ => none

theorem Action.answered_eq_none {place : Place} {a : Action κ σ} {r : Reply}
    (h : ∀ key item b, a = .offer place key item → r ≠ .retained b) :
    Action.answered place (a, r) = none := by
  unfold Action.answered
  split
  · next p key item b he =>
    obtain ⟨rfl, rfl⟩ := Prod.mk.inj he
    exact if_neg fun hp => h key item b (by rw [hp]) rfl
  · rfl

/-- The answered offers to a place, in order. -/
def answered (place : Place) (as : List (Action κ σ)) (replies : List Reply) :
    List ((κ × Item κ σ) × Bool) :=
  (as.zip replies).filterMap (Action.answered place)

/-- The offer that an action makes to a place. -/
def Action.offer? (place : Place) : Action κ σ → Option (κ × Item κ σ)
  | .offer p key item => if p = place then some (key, item) else none
  | _ => none

/-- Where no offer to a place fails, the answered offers are all of them. -/
theorem map_answered {place : Place} : ∀ {as : List (Action κ σ)} {replies : List Reply},
    as.length = replies.length →
      (∀ a r, (a, r) ∈ as.zip replies → (a.offer? place).isSome → ∃ b, r = .retained b) →
        (answered place as replies).map Prod.fst = as.filterMap (Action.offer? place)
  | [], replies, _, _ => rfl
  | a :: as, [], hl, _ => by cases hl
  | a :: as, r :: rs, hl, h => by
    have ih := map_answered (Nat.succ.inj hl) fun a' r' hm => h a' r' (List.mem_cons_of_mem _ hm)
    have hfirst : (Action.answered place (a, r)).map Prod.fst = a.offer? place := by
      cases a with
      | offer p key item =>
        by_cases hp : p = place
        · subst hp
          obtain ⟨b, rfl⟩ := h _ r List.mem_cons_self (by simp [Action.offer?])
          simp [Action.answered, Action.offer?]
        · rw [Action.answered_eq_none fun key' item' b he => absurd (by cases he; rfl) hp,
            Action.offer?, if_neg hp]
          rfl
      | _ => rfl
    unfold answered at ih ⊢
    rw [List.zip_cons_cons, List.filterMap_cons, List.filterMap_cons, ← hfirst, ← ih]
    cases Action.answered place (a, r) <;> rfl

theorem Chart.cell_eq_ok {c : Chart κ σ} {span : Span} {cell : Cell κ σ}
    (h : c.cell span = .ok cell) :
    ∃ hs : span.Within c.length, have := Span.index_lt hs; c.cells[span.index] = cell := by
  unfold Chart.cell at h
  split at h
  · next hs => exact ⟨hs, Except.ok.inj h⟩
  · cases h

/-- The cells of a new chart are empty. -/
theorem Chart.cell_new {w : Workspace σ} {length : Nat} {chart : Chart κ σ}
    (h : (Chart.new w length).1 = .ok chart) {span : Span} {c : Cell κ σ}
    (hc : chart.cell span = .ok c) : c = w.cell := by
  obtain ⟨hs, rfl⟩ := Chart.cell_eq_ok hc
  obtain rfl := Chart.eq_of_new h
  exact Vector.getElem_replicate (Span.index_lt hs)

/-- All cells of a chart have one policy. -/
def Chart.Follows (c : Chart κ σ) (policy : Policy σ) : Prop :=
  ∀ span cell, c.cell span = .ok cell → cell.policy = policy

theorem Chart.follows_new {w : Workspace σ} {n : Nat} {chart : Chart κ σ}
    (h : (Chart.new w n).1 = .ok chart) : chart.Follows w.policy := by
  intro span cell hcell
  rw [Chart.cell_new h hcell]
  rfl

namespace Session

theorem cell?_putCell (s : Session κ σ) {n : Nat} {o o' : Owned (Cell κ σ)}
    (h : s.cells[n]? = some o') : (s.putCell n o).cell? (.cell n) = some (.ok o.value) := by
  obtain ⟨hlt, -⟩ := List.getElem?_eq_some_iff.mp h
  simp [cell?, putCell, hlt]

theorem cell?_putChart (s : Session κ σ) {n : Nat} {o o' : Owned (Chart κ σ)}
    (h : s.charts[n]? = some o') (span : Span) :
    (s.putChart n o).cell? (.span n span) = some (o.value.cell span) := by
  obtain ⟨hlt, -⟩ := List.getElem?_eq_some_iff.mp h
  simp [cell?, putChart, hlt]

theorem cell?_span {s : Session κ σ} {n : Nat} {o : Owned (Chart κ σ)}
    (h : s.charts[n]? = some o) (span : Span) :
    s.cell? (.span n span) = some (o.value.cell span) := by
  rw [cell?, h]
  rfl

/-- `P` holds of the cell at a place and the offers it has answered, if there is a cell. -/
def Tracked (P : Cell κ σ → List ((κ × Item κ σ) × Bool) → Prop) (place : Place)
    (s : Session κ σ) (offers : List ((κ × Item κ σ) × Bool)) : Prop :=
  (s.cell? place = none → offers = []) ∧ ∀ c, s.cell? place = some (.ok c) → P c offers

theorem Tracked.of_eq {P : Cell κ σ → List ((κ × Item κ σ) × Bool) → Prop} {place : Place}
    {s s' : Session κ σ} {offers : List ((κ × Item κ σ) × Bool)} (h : Tracked P place s offers)
    (he : s'.cell? place = s.cell? place) : Tracked P place s' offers := by
  unfold Tracked
  rw [he]
  exact h

end Session

section Offers
variable [DecidableEq κ] [Ord κ] [LT σ] [DecidableLT σ] [Mul σ]

/-! ### Offers to a chart -/

namespace Chart

variable {c : Chart κ σ} {span : Span}

theorem answer_of_error {e : ChartError} (h : c.cell span = .error e)
    (f : Except TermError Fingerprint) (key : κ) (item : Item κ σ) :
    c.answer f span key item = (.error e, c) := by
  unfold Chart.cell at h
  split at h
  · cases h
  · next hs =>
    cases h
    rw [Chart.answer, dif_neg hs]

theorem answer_of_ok {cell : Cell κ σ} (h : c.cell span = .ok cell)
    (f : Except TermError Fingerprint) (key : κ) (item : Item κ σ) :
    (c.answer f span key item).1 = (cell.answer f key item).1.mapError .fingerprint ∧
      (c.answer f span key item).2.cell span = .ok (cell.answer f key item).2 := by
  obtain ⟨hs, rfl⟩ := cell_eq_ok h
  rw [Chart.answer, dif_pos hs]
  refine ⟨rfl, ?_⟩
  rw [Chart.cell, dif_pos hs]
  simp

theorem cell_answer_ne {span' : Span} (hne : span ≠ span') (f : Except TermError Fingerprint)
    (key : κ) (item : Item κ σ) : (c.answer f span key item).2.cell span' = c.cell span' := by
  unfold Chart.answer
  split
  · next hs =>
    unfold Chart.cell
    by_cases hs' : span'.Within c.length
    · have hi : span.index ≠ span'.index := fun h => hne (Span.index_inj hs.1 hs'.1 h)
      simp [hs', hi]
    · simp [hs']
  · rfl

theorem Follows.answer {policy : Policy σ} (hc : c.Follows policy)
    (f : Except TermError Fingerprint) (span : Span) (key : κ) (item : Item κ σ) :
    (c.answer f span key item).2.Follows policy := by
  intro span' cell' hcell'
  by_cases hs : span = span'
  · subst hs
    rcases hcell : c.cell span with e | cell
    · rw [answer_of_error hcell] at hcell'
      exact hc span cell' hcell'
    · rw [(answer_of_ok hcell f key item).2] at hcell'
      rw [← Except.ok.inj hcell', Cell.policy_answer]
      exact hc span cell hcell
  · rw [cell_answer_ne hs] at hcell'
    exact hc span' cell' hcell'

end Chart

namespace Session

variable {w : Workspace σ} {s : Session κ σ} {place : Place}

/-! ### Offers to a place -/

/-- An offer to the cell at a place is answered by this cell. -/
theorem plainOffer_here (hu : s.Uniform w) {c : Cell κ σ} (h : s.cell? place = some (.ok c))
    (key : κ) (item : Item κ σ) :
    (s.plainOffer key item place).1 =
        .of .retained ((c.answer (w.hasher.table.fingerprint item.derivation) key item).1.mapError
          .fingerprint) ∧
      (s.plainOffer key item place).2.cell? place =
        some (.ok (c.answer (w.hasher.table.fingerprint item.derivation) key item).2) := by
  cases place with
  | cell n =>
    obtain ⟨o, ho, hoc⟩ := Option.map_eq_some_iff.mp h
    cases hoc
    rw [plainOffer, hu.cellInUse?, ho]
    exact ⟨rfl, cell?_putCell s ho⟩
  | span n span =>
    obtain ⟨o, ho, hoc⟩ := Option.map_eq_some_iff.mp h
    obtain ⟨h1, h2⟩ := Chart.answer_of_ok hoc (w.hasher.table.fingerprint item.derivation) key item
    rw [plainOffer, hu.chartInUse?, ho]
    simp only [Option.map_some, h1, true_and]
    rw [cell?_putChart s ho, h2]

/-- It leaves the cells at other places as they are. -/
theorem plainOffer_elsewhere (hu : s.Uniform w) {place' : Place} (hne : place ≠ place') (key : κ)
    (item : Item κ σ) : (s.plainOffer key item place).2.cell? place' = s.cell? place' := by
  cases place with
  | cell n =>
    rw [plainOffer, hu.cellInUse?]
    rcases s.cells[n]? with _ | o
    · rfl
    · cases place' with
      | cell m =>
        have hnm : n ≠ m := fun h => hne (congrArg Place.cell h)
        simp [cell?, putCell, hnm]
      | span m span => rfl
  | span n span =>
    rw [plainOffer, hu.chartInUse?]
    rcases ho : s.charts[n]? with _ | o
    · rfl
    · cases place' with
      | cell m => rfl
      | span m span' =>
        by_cases hnm : n = m
        · subst hnm
          have hspan : span ≠ span' := fun h => hne (congrArg (Place.span n) h)
          simp only [Option.map_some]
          rw [cell?_putChart s ho, Chart.cell_answer_ne hspan, cell?_span ho]
        · simp [cell?, putChart, hnm]

/-- Where there is no cell, nothing is retained or refused, and no cell is made. -/
theorem plainOffer_missing (hu : s.Uniform w) (h : ∀ c, s.cell? place ≠ some (.ok c)) (key : κ)
    (item : Item κ σ) :
    (∀ b, (s.plainOffer key item place).1 ≠ .retained b) ∧
      (s.plainOffer key item place).2.cell? place = s.cell? place := by
  cases place with
  | cell n =>
    rw [plainOffer, hu.cellInUse?]
    rcases ho : s.cells[n]? with _ | o
    · exact ⟨by simp, rfl⟩
    · exact absurd (by simp [cell?, ho]) (h o.value)
  | span n span =>
    rw [plainOffer, hu.chartInUse?]
    rcases ho : s.charts[n]? with _ | o
    · exact ⟨by simp, rfl⟩
    rcases hc : o.value.cell span with e | c
    · have ha := Chart.answer_of_error hc (w.hasher.table.fingerprint item.derivation) key item
      simp only [Option.map_some, ha]
      exact ⟨by simp [Reply.of], by rw [cell?_putChart s ho, cell?_span ho]⟩
    · exact absurd (by simp [cell?, ho, hc]) (h c)

/-! ### Other actions -/

/-- An action that is no offer leaves a cell as it is. At most it makes an empty one. -/
theorem cell?_actIn {a : Action κ σ} (ha : ∀ p key item, a ≠ .offer p key item) :
    (actIn w s a).2.cell? place = s.cell? place ∨
      s.cell? place = none ∧
        ∀ c, (actIn w s a).2.cell? place = some (.ok c) → c = w.cell := by
  cases a with
  | makeCell n =>
    cases place with
    | cell m =>
      by_cases hm : m < s.cells.length
      · left
        simp [actIn, cell?, addCell, List.getElem?_append_left hm]
      · right
        have hnone : s.cells[m]? = none := List.getElem?_eq_none (by omega)
        refine ⟨by simp [cell?, hnone], fun c hc => ?_⟩
        obtain ⟨o, ho, hoc⟩ := Option.map_eq_some_iff.mp hc
        rw [actIn, addCell, List.getElem?_append_right (by omega)] at ho
        rw [List.mem_singleton.mp (List.mem_of_getElem? ho)] at hoc
        exact (Except.ok.inj hoc).symm
    | span m span => exact Or.inl rfl
  | makeChart n length =>
    rw [actIn]
    rcases hnew : (Chart.new w length).1 with e | chart
    · exact Or.inl rfl
    cases place with
    | cell m => exact Or.inl rfl
    | span m span =>
      by_cases hm : m < s.charts.length
      · left
        simp [cell?, addChart, List.getElem?_append_left hm]
      · right
        have hnone : s.charts[m]? = none := List.getElem?_eq_none (by omega)
        refine ⟨by simp [cell?, hnone], fun c hc => ?_⟩
        obtain ⟨o, ho, hoc⟩ := Option.map_eq_some_iff.mp hc
        have ho' : (s.charts ++ [⟨n, chart⟩])[m]? = some o := ho
        rw [List.getElem?_append_right (by omega)] at ho'
        rw [List.mem_singleton.mp (List.mem_of_getElem? ho')] at hoc
        exact Chart.cell_new hnew hoc
  | offer p key item => exact absurd rfl (ha p key item)
  | _ => exact Or.inl rfl

theorem cell?_plainAct (hw : w.newSentence = w) (hu : s.Uniform w) {a : Action κ σ}
    (ha : ∀ p key item, a ≠ .offer p key item) (place : Place) :
    (s.plainAct a).2.cell? place = s.cell? place ∨
      s.cell? place = none ∧
        ∀ c, (s.plainAct a).2.cell? place = some (.ok c) → c = w.cell := by
  by_cases hn : ∀ n ∈ a.workspace?, n < s.workspaces.length
  · rw [plainAct_eq_actIn hw hu hn]
    exact cell?_actIn ha
  · push Not at hn
    obtain ⟨n, hn, hlt⟩ := hn
    rw [plainAct_of_missing hn (List.getElem?_eq_none hlt)]
    exact Or.inl rfl

/-! ### Runs -/

theorem plainRun_append (bs : List (Action κ σ)) : ∀ (as : List (Action κ σ)) (s : Session κ σ),
    s.plainRun (as ++ bs) =
      ((s.plainRun as).1 ++ ((s.plainRun as).2.plainRun bs).1, ((s.plainRun as).2.plainRun bs).2)
  | [], s => rfl
  | a :: as, s => by
    rw [List.cons_append, plainRun, plainRun_append bs as, plainRun]
    rfl

theorem length_plainRun : ∀ (as : List (Action κ σ)) (s : Session κ σ),
    (s.plainRun as).1.length = as.length
  | [], _ => rfl
  | a :: as, s => by
    rw [plainRun, List.length_cons, List.length_cons, length_plainRun as]

theorem answered_append (place : Place) (as bs : List (Action κ σ)) (s : Session κ σ) :
    answered place (as ++ bs) (s.plainRun (as ++ bs)).1 =
      answered place as (s.plainRun as).1 ++
        answered place bs ((s.plainRun as).2.plainRun bs).1 := by
  rw [plainRun_append, answered, List.zip_append (length_plainRun as s).symm,
    List.filterMap_append, answered, answered]

theorem answered_singleton (place : Place) (a : Action κ σ) (s : Session κ σ) :
    answered place [a] (s.plainRun [a]).1 =
      (Action.answered place (a, (s.plainAct a).1)).toList := by
  rw [plainRun, plainRun]
  rcases h : Action.answered place (a, (s.plainAct a).1) with _ | o <;> simp [answered, h]

/-- `P` holds of an empty cell that has answered nothing, each answer keeps it with one offer more,
and each failure keeps it. -/
structure Kept (w : Workspace σ) (P : Cell κ σ → List ((κ × Item κ σ) × Bool) → Prop) : Prop where
  new : P w.cell []
  ok : ∀ {c offers key item b c'}, P c offers →
    c.answer (w.hasher.table.fingerprint item.derivation) key item = (.ok b, c') →
      P c' (offers ++ [((key, item), b)])
  error : ∀ {c offers key item e c'}, P c offers →
    c.answer (w.hasher.table.fingerprint item.derivation) key item = (.error e, c') → P c' offers

variable {P : Cell κ σ → List ((κ × Item κ σ) × Bool) → Prop}
  {offers : List ((κ × Item κ σ) × Bool)}

theorem Tracked.plainOffer (hP : Kept w P) (hu : s.Uniform w) (h : Tracked P place s offers)
    (key : κ) (item : Item κ σ) :
    Tracked P place (s.plainOffer key item place).2 (offers ++
      (Action.answered place
        (.offer place key item, (s.plainOffer key item place).1)).toList) := by
  by_cases hc : ∃ c, s.cell? place = some (.ok c)
  · obtain ⟨c, hc⟩ := hc
    obtain ⟨h1, h2⟩ := plainOffer_here hu hc key item
    rcases ha : c.answer (w.hasher.table.fingerprint item.derivation) key item with ⟨r, c'⟩
    rw [ha] at h1 h2
    refine ⟨fun hn => absurd (h2.symm.trans hn) (Option.some_ne_none _), fun d hd => ?_⟩
    cases h2.symm.trans hd
    rw [h1]
    cases r with
    | error e =>
      have hnone : Action.answered place
          (.offer place key item, .failed (.fingerprint e)) = none := rfl
      simpa [Reply.of, Except.mapError, hnone] using hP.error (h.2 c hc) ha
    | ok b =>
      have hsome : Action.answered place (.offer place key item, .retained b) =
          some ((key, item), b) := if_pos rfl
      simpa [Reply.of, Except.mapError, hsome] using hP.ok (h.2 c hc) ha
  · obtain ⟨h1, h2⟩ := plainOffer_missing hu (fun c hc' => hc ⟨c, hc'⟩) key item
    rw [Action.answered_eq_none fun _ _ b _ => h1 b, Option.toList_none, List.append_nil]
    exact h.of_eq h2

/-- **One action** changes a cell by an offer to it, if at all. -/
theorem Tracked.plainAct (hw : w.newSentence = w) (hP : Kept w P) (hu : s.Uniform w)
    (h : Tracked P place s offers) (a : Action κ σ) :
    Tracked P place (s.plainAct a).2 (offers ++
      (Action.answered place (a, (s.plainAct a).1)).toList) := by
  by_cases ha : ∃ p key item, a = .offer p key item
  · obtain ⟨p, key, item, rfl⟩ := ha
    by_cases hp : p = place
    · subst hp
      exact h.plainOffer hP hu key item
    · have hnone : ∀ r, Action.answered place (.offer p key item, r) = none := fun r =>
        Action.answered_eq_none fun _ _ _ he => absurd (by cases he; rfl) hp
      rw [hnone, Option.toList_none, List.append_nil]
      exact h.of_eq (plainOffer_elsewhere hu hp key item)
  · have ha' : ∀ p key item, a ≠ .offer p key item := fun p key item he => ha ⟨p, key, item, he⟩
    have hnone : ∀ r, Action.answered place (a, r) = none := fun r =>
      Action.answered_eq_none fun key item _ he => absurd he (ha' place key item)
    rw [hnone, Option.toList_none, List.append_nil]
    rcases cell?_plainAct hw hu ha' place with he | ⟨hn, hnew⟩
    · exact h.of_eq he
    · rw [h.1 hn]
      exact ⟨fun _ => rfl, fun c hc => hnew c hc ▸ hP.new⟩

/-- **The history of a cell**: what holds of an empty cell and is kept by its answers holds after
every run of the cell and the offers that it has answered. -/
theorem Tracked.plainRun (hw : w.newSentence = w) (hP : Kept w P) (hu : s.Uniform w)
    (h : Tracked P place s []) (as : List (Action κ σ)) :
    Tracked P place (s.plainRun as).2 (answered place as (s.plainRun as).1) := by
  induction as using List.reverseRecOn with
  | nil => exact h
  | append_singleton as a ih =>
    rw [answered_append, answered_singleton, plainRun_append]
    exact ih.plainAct hw hP (Uniform.plainRun hw as hu) a

end Session

end Offers

end CategorialChart
