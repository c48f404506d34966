import CategorialChart.Proofs.Cell.Runs
import CategorialChart.Proofs.Session.Cells

/-! # The cells of a chart

The cells of a chart share a hasher and nothing else. `Chart.addAll` makes offers to the cells of a
chart in a row, and `addressed` picks what concerns one span. Then `cells_independent`: each cell
answers and ends as a cell of its own that is offered the items of its span alone, and an offer
outside the sentence changes nothing. -/

namespace CategorialChart

open CategorialChart.Derivation (OwnNumbers)

variable {κ σ : Type}

/-- What is addressed to a span, in order. -/
def addressed {α : Type} (span : Span) (l : List (Span × α)) : List α :=
  (l.filter fun p => p.1 = span).map Prod.snd

theorem addressed_cons {α : Type} (span : Span) (p : Span × α) (l : List (Span × α)) :
    addressed span (p :: l) = if p.1 = span then p.2 :: addressed span l else addressed span l := by
  unfold addressed
  by_cases h : p.1 = span <;> simp [h]

theorem addressed_append {α : Type} (span : Span) (l l' : List (Span × α)) :
    addressed span (l ++ l') = addressed span l ++ addressed span l' := by
  rw [addressed, List.filter_append, List.map_append, addressed, addressed]

theorem addressed_map {α β : Type} (span : Span) (f : α → β) (l : List (Span × α)) :
    addressed span (l.map fun p => (p.1, f p.2)) = (addressed span l).map f := by
  unfold addressed
  rw [List.filter_map, List.map_map, List.map_map]
  rfl

theorem mem_of_mem_addressed {α : Type} {span : Span} {a : α} {l : List (Span × α)}
    (h : a ∈ addressed span l) : (span, a) ∈ l := by
  obtain ⟨⟨s, b⟩, hp, rfl⟩ := List.mem_map.mp h
  obtain ⟨hmem, hs⟩ := List.mem_filter.mp hp
  rw [← of_decide_eq_true hs]
  exact hmem

theorem Chart.length_new {w : Workspace σ} {n : Nat} {chart : Chart κ σ}
    (h : (Chart.new w n).1 = .ok chart) : chart.length = n := by
  rw [Chart.eq_of_new h]

variable [DecidableEq κ] [Ord κ] [LT σ] [DecidableLT σ] [Mul σ]

/-- Offers of items under their own keys, in a row. -/
def Cell.addAll (c : Cell κ σ) (hasher : Hasher) (items : List (Item κ σ)) :
    List (Except TermError Bool) × Cell κ σ × Hasher :=
  transcript (fun s item => s.1.add s.2 item) (c, hasher) items

theorem Cell.addAll_eq (c : Cell κ σ) (hasher : Hasher) (items : List (Item κ σ)) :
    c.addAll hasher items = c.offerAll hasher (items.map fun x => (x.key, x)) :=
  (transcript_map (fun (s : Cell κ σ × Hasher) (o : κ × Item κ σ) => s.1.offer s.2 o.1 o.2)
    (fun x : Item κ σ => (x.key, x)) items (c, hasher)).symm

namespace Chart

/-- Offers to the cells of spans, in a row: the results, and the chart and the hasher after the
last. -/
def addAll (c : Chart κ σ) (hasher : Hasher) (offers : List (Span × Item κ σ)) :
    List (Except ChartError Bool) × Chart κ σ × Hasher :=
  transcript (fun s o => s.1.add s.2 o.1 o.2) (c, hasher) offers

variable {t : ContributionTable} {D : Set Derivation} {c : Chart κ σ} {h : Hasher} {span : Span}
  {item : Item κ σ}

theorem length_addAll (c : Chart κ σ) (h : Hasher) (offers : List (Span × Item κ σ)) :
    (c.addAll h offers).2.1.length = c.length := by
  have hstep : ∀ (s : Chart κ σ × Hasher) (o : Span × Item κ σ), s.1.length = c.length →
      (s.1.add s.2 o.1 o.2).2.1.length = c.length := by
    rintro ⟨c', h'⟩ o hc
    unfold Chart.add Chart.offer
    split
    · exact hc
    · exact hc
  exact transcript_keeps hstep offers rfl

/-- An offer outside the sentence fails and changes nothing. -/
theorem offer_outside (hspan : ¬ span.Within c.length) (h : Hasher) (key : κ) (item : Item κ σ) :
    c.offer h span key item = (.error (.spanOutOfRange span.start span.stop c.length), c, h) :=
  dif_neg hspan

theorem add_outside (hspan : ¬ span.Within c.length) (h : Hasher) (item : Item κ σ) :
    c.add h span item = (.error (.spanOutOfRange span.start span.stop c.length), c, h) :=
  offer_outside hspan h item.key item

/-- An offer to the cell of a span is answered by this cell. -/
theorem add_here (hD : OwnNumbers D) (hr : h.Reached t D) (hd : item.derivation ∈ D)
    {cell : Cell κ σ} (hcell : c.cell span = .ok cell) :
    (c.add h span item).1 = (cell.answer (t.fingerprint item.derivation) item.key item).1.mapError
        .fingerprint ∧
      (c.add h span item).2.1.cell span =
        .ok (cell.answer (t.fingerprint item.derivation) item.key item).2 := by
  have hans := answer_of_ok hcell (t.fingerprint item.derivation) item.key item
  rw [Chart.add, offer_eq, hr.fingerprint_eq hD hd]
  exact hans

/-- It leaves the cells of other spans as they are. -/
theorem add_elsewhere {span' : Span} (hne : span ≠ span') (c : Chart κ σ) (h : Hasher)
    (item : Item κ σ) : (c.add h span item).2.1.cell span' = c.cell span' := by
  rw [Chart.add, offer_eq]
  exact cell_answer_ne hne _ item.key item

theorem add_reached (hr : h.Reached t D) (hd : item.derivation ∈ D) (c : Chart κ σ)
    (span : Span) : (c.add h span item).2.2.Reached t D := by
  rw [Chart.add, offer_eq]
  exact hr.used hd (c.asks span item.key item)

theorem addAll_cons (c : Chart κ σ) (h : Hasher) (o : Span × Item κ σ)
    (offers : List (Span × Item κ σ)) :
    c.addAll h (o :: offers) =
      ((c.add h o.1 o.2).1 :: ((c.add h o.1 o.2).2.1.addAll (c.add h o.1 o.2).2.2 offers).1,
        ((c.add h o.1 o.2).2.1.addAll (c.add h o.1 o.2).2.2 offers).2) := rfl

/-- **A cell answers to the offers of its span alone**, and they alone change it. -/
theorem addAll_spec (hD : OwnNumbers D) : ∀ {offers : List (Span × Item κ σ)} {c : Chart κ σ}
    {h : Hasher} {cell : Cell κ σ}, h.Reached t D → (∀ o ∈ offers, o.2.derivation ∈ D) →
      c.cell span = .ok cell →
        addressed span ((offers.map Prod.fst).zip (c.addAll h offers).1) =
            (Cell.answerAll t cell ((addressed span offers).map fun x => (x.key, x))).1.map
              (·.mapError .fingerprint) ∧
          (c.addAll h offers).2.1.cell span =
            .ok (Cell.answerAll t cell ((addressed span offers).map fun x => (x.key, x))).2
  | [], _, _, _, _, _, hcell => ⟨rfl, hcell⟩
  | (span', item) :: offers, c, h, cell, hr, hd, hcell => by
    have hitem : item.derivation ∈ D := hd _ List.mem_cons_self
    have hrest : ∀ o ∈ offers, o.2.derivation ∈ D := fun o ho => hd o (List.mem_cons_of_mem _ ho)
    have hr' := add_reached hr hitem c span'
    rw [addAll_cons, List.map_cons, List.zip_cons_cons, addressed_cons, addressed_cons]
    by_cases hs : span = span'
    · subst hs
      obtain ⟨h1, h2⟩ := add_here hD hr hitem hcell
      obtain ⟨h3, h4⟩ := addAll_spec hD hr' hrest h2
      rw [if_pos rfl, if_pos rfl, h1, h3]
      exact ⟨rfl, h4⟩
    · have hne : span' ≠ span := Ne.symm hs
      have h2 := (add_elsewhere hne c h item).trans hcell
      rw [if_neg hne, if_neg hne]
      exact addAll_spec hD hr' hrest h2

/-- **The cells of a chart are independent.** After any offers to the cells of a new chart, each
cell has answered the offers of its span, and is, as a cell of its own that was offered the items of
that span alone, with any hasher in use for the same table. An offer to what is no span of the
sentence fails, and changes neither the chart nor what the hasher remembers. -/
theorem cells_independent {w w' : Workspace σ} {n : Nat} {chart : Chart κ σ}
    (hnew : Chart.new w n = (.ok chart, w')) (hD : OwnNumbers D)
    {offers : List (Span × Item κ σ)} (hd : ∀ o ∈ offers, o.2.derivation ∈ D) :
    let after := chart.addAll w'.hasher offers
    (∀ span : Span, span.start < span.stop → span.stop ≤ n →
        ∀ h : Hasher, h.Reached w.hasher.table D →
          let own := w.cell.addAll h (addressed span offers)
          addressed span ((offers.map Prod.fst).zip after.1) =
              own.1.map (·.mapError .fingerprint) ∧
            after.2.1.cell span = .ok own.2.1) ∧
      ∀ (span : Span) (item : Item κ σ), span.stop ≤ span.start ∨ n < span.stop →
        after.2.1.add after.2.2 span item =
          (.error (.spanOutOfRange span.start span.stop n), after.2.1, after.2.2) := by
  intro after
  have hok : (Chart.new w n).1 = .ok chart := congrArg Prod.fst hnew
  have hw : w' = w.newSentence := (congrArg Prod.snd hnew).symm.trans (Chart.new_snd w n)
  have hr' : w'.hasher.Reached w.hasher.table D := by
    rw [hw]
    exact .new
  have hlength : chart.length = n := length_new hok
  refine ⟨fun span hstart hstop h hr => ?_, fun span item hspan => ?_⟩
  · have hin : span.Within chart.length := by
      rw [hlength]
      exact ⟨hstart, hstop⟩
    have hcell : chart.cell span = .ok w.cell := by
      have hsome : ∃ c, chart.cell span = .ok c := ⟨_, dif_pos hin⟩
      obtain ⟨c, hc⟩ := hsome
      rw [hc, cell_new hok hc]
    have hown : ∀ o ∈ (addressed span offers).map fun x => (x.key, x), o.2.derivation ∈ D := by
      intro o ho
      obtain ⟨x, hx, rfl⟩ := List.mem_map.mp ho
      exact hd _ (mem_of_mem_addressed hx)
    obtain ⟨h1, h2⟩ := addAll_spec hD hr' hd hcell
    obtain ⟨h3, h4, -⟩ := Cell.offerAll_spec hD w.cell hr hown
    rw [← h3] at h1
    rw [← h4] at h2
    rw [Cell.addAll_eq]
    exact ⟨h1, h2⟩
  · have hafter : after.2.1.length = n := (length_addAll chart w'.hasher offers).trans hlength
    have hout : ¬ span.Within after.2.1.length := by
      rw [hafter]
      rintro ⟨h1, h2⟩
      omega
    have h := add_outside hout after.2.2 item
    rw [hafter] at h
    exact h

end Chart

namespace Forest

/-- A workspace whose cells take fingerprints. -/
def workspace : Workspace Nat := ⟨.nBestHashed 1 1, { table }⟩

/-- Offers to two spans of two words, and to a span beyond them. -/
def crossing : List (Span × Item Nat Nat) :=
  [(⟨0, 1⟩, item once 3), (⟨0, 2⟩, item raised 3), (⟨1, 3⟩, item once 3), (⟨0, 2⟩, item once 3)]

end Forest

open Forest in
/-- The item of the first offer is no duplicate of its like in another span. The last item is one. -/
theorem Chart.cells_independent_forest :
    ∃ (chart : Chart Nat Nat) (w : Workspace Nat), Chart.new workspace 2 = (.ok chart, w) ∧
      addressed ⟨0, 2⟩ ((crossing.map Prod.fst).zip (chart.addAll w.hasher crossing).1) =
        [.ok true, .ok false] ∧
      ((chart.addAll w.hasher crossing).2.1.add (chart.addAll w.hasher crossing).2.2 ⟨1, 3⟩
        (item once 3)).1 = .error (.spanOutOfRange 1 3 2) := by
  have hnew : Chart.new (κ := Nat) workspace 2 =
      (.ok ⟨2, .replicate _ workspace.cell⟩, workspace.newSentence) := rfl
  have hd : ∀ o ∈ crossing, o.2.derivation ∈ ({paired, raised, twice, once} : Set Derivation) := by
    simp [crossing, item]
  have hr : Hasher.Reached table {paired, raised, twice, once} { table } := .new
  obtain ⟨hin, hout⟩ := cells_independent hnew own hd
  obtain ⟨hresults, -⟩ := hin ⟨0, 2⟩ (by decide) (by decide) { table } hr
  refine ⟨_, _, hnew, hresults.trans ?_, ?_⟩
  · have hown : ∀ o ∈ (addressed ⟨0, 2⟩ crossing).map fun x => (x.key, x),
        o.2.derivation ∈ ({paired, raised, twice, once} : Set Derivation) := by
      simp [addressed, crossing, item]
    rw [Cell.addAll_eq, (Cell.offerAll_spec own workspace.cell hr hown).1]
    rfl
  · rw [hout ⟨1, 3⟩ (item once 3) (by decide)]

end CategorialChart
