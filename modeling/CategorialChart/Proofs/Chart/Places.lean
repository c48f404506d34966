import CategorialChart.Proofs.Chart.Enumeration
import Mathlib.Order.Interval.Set.Defs

/-! # The places of the cells

The cell of the span from `start` to `stop` stands at `stop * (stop - 1) / 2 + start` in the vector
of cells. The spans with one end fill a row of the triangle, and each row begins where the row
before it ends. So the spans of a sentence have different places, and between them all places below
`n * (n + 1) / 2` (`Span.bijOn_index`).

* `Chart.new_eq_ok`: a new chart has so many cells.
* `Chart.cell_eq_error_iff`: what is no span of the sentence has no place, and all else has one.
* `places_bijective`: spans and cells correspond one to one, for sentences of all lengths. -/

namespace CategorialChart

variable {κ σ : Type}

/-- **The formula of the triangle** takes the spans of a sentence to the places of its triangle, one
to one. -/
theorem Span.bijOn_index (n : Nat) : Set.BijOn index {s | s.Within n} (Set.Iio (spanCount n)) := by
  refine ⟨fun s hs => index_lt hs, fun s hs t ht h => index_inj hs.1 ht.1 h, fun i hi => ?_⟩
  obtain ⟨s, hs, rfl⟩ := exists_index hi
  exact ⟨s, hs, rfl⟩

namespace Chart

/-- A sentence that is not too long gets a chart with a new cell for each place. -/
theorem new_eq_ok {w : Workspace σ} {n : Nat}
    (h : w.policy.has .structuralDedup = true → n ≤ w.maxSentenceLength) :
    (Chart.new w n).1 = .ok (⟨n, .replicate _ w.cell⟩ : Chart κ σ) := by
  have hshort : ¬ (w.policy.has .structuralDedup ∧ w.maxSentenceLength < n) := fun hlong =>
    Nat.not_lt.mpr (h hlong.1) hlong.2
  have hstart : (w.startSentence n).1 = .ok () := congrArg Prod.fst (if_neg hshort)
  rw [new_fst, hstart]
  rfl

variable {c : Chart κ σ} {span : Span}

/-- A look-up fails for what is no span of the sentence, and for nothing else. -/
theorem cell_eq_error_iff {e : ChartError} :
    c.cell span = .error e ↔
      ¬ span.Within c.length ∧ e = .spanOutOfRange span.start span.stop c.length := by
  unfold Chart.cell
  by_cases h : span.Within c.length
  · simp [h]
  · simp [h, eq_comm]

/-- Each cell is that of a span. -/
theorem exists_span (c : Chart κ σ) {i : Nat} (hi : i < c.cells.size) :
    ∃ s : Span, s.Within c.length ∧ s.index = i ∧ c.cell s = .ok c.cells[i] := by
  obtain ⟨s, hs, rfl⟩ := Span.exists_index hi
  exact ⟨s, hs, rfl, dif_pos hs⟩

variable [DecidableEq κ] [Ord κ] [LT σ] [DecidableLT σ] [Mul σ]

/-- **Spans and cells correspond one to one**, for sentences of any length `n`. The formula of the
triangle is a bijection from the spans of the sentence to the numbers below `n * (n + 1) / 2`, and a
new chart has exactly so many cells. In every chart of the sentence, a look-up for a span finds the
cell at its place inside the vector, and a look-up for anything else is an error that names it. Each
cell is found for a span, and an offer to one span changes the cell of this span and that of no
other. -/
theorem places_bijective (n : Nat) :
    Set.BijOn (fun s : Span => s.stop * (s.stop - 1) / 2 + s.start)
        {s | s.start < s.stop ∧ s.stop ≤ n} (Set.Iio (n * (n + 1) / 2)) ∧
      (∀ w : Workspace σ, (w.policy.has .structuralDedup = true → n ≤ w.maxSentenceLength) →
        ∃ c : Chart κ σ, (Chart.new w n).1 = .ok c ∧ c.length = n ∧
          c.cells.toList = List.replicate (n * (n + 1) / 2) w.cell) ∧
      ∀ c : Chart κ σ, c.length = n →
        (∀ s : Span, s.start < s.stop ∧ s.stop ≤ n →
          ∃ hplace : s.stop * (s.stop - 1) / 2 + s.start < c.cells.size,
            c.cell s = .ok c.cells[s.stop * (s.stop - 1) / 2 + s.start]) ∧
        (∀ (s : Span) (e : ChartError), c.cell s = .error e ↔
          ¬ (s.start < s.stop ∧ s.stop ≤ n) ∧ e = .spanOutOfRange s.start s.stop n) ∧
        (∀ (i : Nat) (hi : i < c.cells.size), ∃ s : Span, (s.start < s.stop ∧ s.stop ≤ n) ∧
          s.stop * (s.stop - 1) / 2 + s.start = i ∧ c.cell s = .ok c.cells[i]) ∧
        ∀ (h : Hasher) (key : κ) (item : Item κ σ) (s : Span),
          (∀ cell, c.cell s = .ok cell →
            (c.offer h s key item).2.1.cell s = .ok (cell.offer h key item).2.1) ∧
          (∀ e, c.cell s = .error e → c.offer h s key item = (.error e, c, h)) ∧
          ∀ t : Span, s ≠ t → (c.offer h s key item).2.1.cell t = c.cell t := by
  refine ⟨Span.bijOn_index n, fun w hw => ⟨_, new_eq_ok hw, rfl, Vector.toList_replicate⟩, ?_⟩
  rintro c rfl
  refine ⟨fun s hs => cell_eq_place hs, fun s e => cell_eq_error_iff, fun i hi => c.exists_span hi,
    fun h key item s => ⟨fun cell hcell => cell_offer_here hcell h key item, fun e he => ?_,
      fun t hne => cell_offer_elsewhere hne c h key item⟩⟩
  obtain ⟨hs, rfl⟩ := cell_eq_error_iff.mp he
  exact offer_outside hs h key item

end Chart

open Forest in
/-- Of three words, the last two have the place `4` of six. There is no span of the words `1` to
`4`. -/
theorem Chart.places_bijective_forest :
    ∃ c : Chart Nat Nat, (Chart.new replacing 3).1 = .ok c ∧ c.cells.toList.length = 6 ∧
      (∃ hplace : 4 < c.cells.size, c.cell ⟨1, 3⟩ = .ok c.cells[4]) ∧
      c.cell ⟨1, 4⟩ = .error (.spanOutOfRange 1 4 3) ∧
      ∃ s : Span, s.stop * (s.stop - 1) / 2 + s.start = 5 ∧ s.stop ≤ 3 ∧ s ≠ ⟨1, 3⟩ := by
  obtain ⟨hbij, hnew, hlookup⟩ := places_bijective (κ := Nat) (σ := Nat) 3
  obtain ⟨c, hc, hlength, hcells⟩ := hnew replacing (by decide)
  obtain ⟨hplace, herror, -⟩ := hlookup c hlength
  obtain ⟨s, hs, hfive⟩ := hbij.surjOn (Set.mem_Iio.mpr (show 5 < 3 * (3 + 1) / 2 by decide))
  refine ⟨c, hc, by rw [hcells]; rfl, hplace ⟨1, 3⟩ (by decide), ?_, s, hfive, hs.2, ?_⟩
  · exact (herror _ _).mpr ⟨by decide, rfl⟩
  · rintro rfl
    cases hfive

end CategorialChart
