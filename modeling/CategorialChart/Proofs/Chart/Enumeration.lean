import CategorialChart.Proofs.Cell.Lasting
import CategorialChart.Proofs.Cell.Order
import CategorialChart.Proofs.Chart.SeedOutcome

/-! # The listing of spans

The cells of a chart stand in the order of the ends of their spans, and the listing goes through the
spans by width. It looks at every span of the sentence once (`Span.mem_all`,
`Span.pairwise_before_all`), always at the place where the cell of the span stands
(`Chart.cell_eq_place`), and lists those that hold items.

* `Span.Before`: the order of the listing.
* `Chart.spans_eq_loops`: the listing as two loops, over the widths and over the starts.
* `spans_complete`: what the listing of a chart contains, in which order, and how many items. -/

namespace CategorialChart

/-- What is paired with something, if it is taken at all, is taken in order. -/
theorem sublist_of_paired {α β : Type} {f : α → Option (α × β)}
    (h : ∀ a p, f a = some p → p.1 = a) : ∀ l : List α,
      ((l.filterMap f).map Prod.fst).Sublist l
  | [] => .slnil
  | a :: l => by
    rw [List.filterMap_cons]
    split
    · exact (sublist_of_paired h l).cons a
    · next p hp =>
      rw [List.map_cons, h a p hp]
      exact (sublist_of_paired h l).cons_cons a

namespace Span

/-- The number of words of a span. -/
def width (s : Span) : Nat := s.stop - s.start

/-- A span stands before another: it is narrower, or as wide and further to the left. -/
def Before (s t : Span) : Prop := s.width < t.width ∨ s.width = t.width ∧ s.start < t.start

theorem pairwise_before_all (n : Nat) : (all n).Pairwise Before := by
  unfold all
  rw [List.pairwise_flatMap]
  constructor
  · intro w _
    rw [List.pairwise_map]
    refine List.pairwise_lt_range.imp fun hlt => Or.inr ⟨?_, hlt⟩
    simp only [width]
    omega
  · refine List.pairwise_lt_range.imp fun {w v} hlt s hs t ht => Or.inl ?_
    obtain ⟨a, -, rfl⟩ := List.mem_map.mp hs
    obtain ⟨b, -, rfl⟩ := List.mem_map.mp ht
    simp only [width]
    omega

end Span

variable {κ σ : Type}

namespace Chart

/-- The cell of a span stands at the place of the span. -/
theorem cell_eq_place {c : Chart κ σ} {span : Span} (h : span.Within c.length) :
    ∃ hplace : span.stop * (span.stop - 1) / 2 + span.start < c.cells.size,
      c.cell span = .ok c.cells[span.stop * (span.stop - 1) / 2 + span.start] :=
  ⟨Span.index_lt h, dif_pos h⟩

/-- What is listed for a width and a start: the cell at the place of the span, if it holds an
item. -/
def listedAt (c : Chart κ σ) (width start : Nat) : Option (Span × Cell κ σ) :=
  let stop := start + width
  match c.cells.toList[stop * (stop - 1) / 2 + start]? with
  | some cell => if cell.isEmpty then none else some (⟨start, stop⟩, cell)
  | none => none

/-- **The listing** goes through the widths, and for each width through the starts, and reads the
cells by their places. -/
theorem spans_eq_loops (c : Chart κ σ) :
    c.spans = (List.range' 1 c.length).flatMap fun width =>
      (List.range (c.length - width + 1)).filterMap (c.listedAt width) := by
  unfold spans Span.all
  rw [List.filterMap_flatMap, List.range'_eq_map_range, List.flatMap_map]
  refine List.flatMap_congr fun w hw => ?_
  have hw := List.mem_range.mp hw
  have hstarts : c.length - (1 + w) + 1 = c.length - w := by omega
  rw [List.filterMap_map, hstarts]
  refine List.filterMap_congr fun start hstart => ?_
  have hstart := List.mem_range.mp hstart
  have hwithin : (⟨start, start + (1 + w)⟩ : Span).Within c.length := by
    constructor <;> dsimp only <;> omega
  obtain ⟨hplace, hcell⟩ := cell_eq_place hwithin
  have hget := List.getElem?_eq_getElem (l := c.cells.toList) (by simpa using hplace)
  have hspan : start + w + 1 = start + (1 + w) := by omega
  rw [Function.comp_apply, hspan, hcell, listedAt]
  dsimp only
  rw [hget]
  rfl

/-- A span is listed with its cell if the cell holds an item. -/
theorem mem_spans {c : Chart κ σ} {span : Span} {cell : Cell κ σ} :
    (span, cell) ∈ c.spans ↔
      span.Within c.length ∧ c.cell span = .ok cell ∧ cell.entries ≠ [] := by
  unfold spans
  rw [List.mem_filterMap]
  constructor
  · rintro ⟨s, hs, h⟩
    obtain ⟨d, hd, -⟩ := cell_of_mem_all hs
    rw [hd] at h
    dsimp only at h
    split at h
    · cases h
    · next he =>
      cases h
      exact ⟨Span.mem_all.mp hs, hd, Cell.isEmpty_eq_false.mp (Bool.eq_false_of_not_eq_true he)⟩
  · rintro ⟨hs, hcell, he⟩
    refine ⟨span, Span.mem_all.mpr hs, ?_⟩
    rw [hcell]
    dsimp only
    rw [Cell.isEmpty_eq_false.mpr he]
    rfl

/-- The spans that are listed come in the order in which they are looked at. -/
theorem sublist_spans (c : Chart κ σ) : (c.spans.map Prod.fst).Sublist (Span.all c.length) := by
  refine sublist_of_paired (fun s p h => ?_) _
  split at h
  · split at h
    · cases h
    · cases h
      rfl
  · cases h

/-- The spans are listed in order. -/
theorem pairwise_spans (c : Chart κ σ) : c.spans.Pairwise fun p q => p.1.Before q.1 :=
  List.pairwise_map.mp ((Span.pairwise_before_all c.length).sublist c.sublist_spans)

variable [DecidableEq κ] [Ord κ] [LT σ] [DecidableLT σ] [Mul σ]

/-- **The listing of spans is complete and in order**, for every chart that comes about by offers
and seedings. It goes through the widths, and for each width through the starts, and looks for the
cell of a span always at a place inside the vector of cells, which is where the cell of the span is
found. Those that it lists are the spans of the sentence whose cells hold items, each with its cell,
each once, by width and then from left to right. The sizes that it lists are those of all items
held, which are those admitted and not replaced. -/
theorem spans_complete {w : Workspace σ} {n answered : Nat} {c : Chart κ σ}
    (hc : c.Grown w n answered) :
    (c.spans = (List.range' 1 n).flatMap fun width =>
      (List.range (n - width + 1)).filterMap (c.listedAt width)) ∧
    (∀ width start : Nat, 0 < width → width ≤ n → start ≤ n - width →
      let stop := start + width
      ∃ hplace : stop * (stop - 1) / 2 + start < c.cells.size,
        c.cell ⟨start, stop⟩ = .ok c.cells[stop * (stop - 1) / 2 + start]) ∧
    (∀ (span : Span) (cell : Cell κ σ), (span, cell) ∈ c.spans ↔
      (span.start < span.stop ∧ span.stop ≤ n) ∧ c.cell span = .ok cell ∧ cell.entries ≠ []) ∧
    (c.spans.Pairwise fun p q => p.1.Before q.1) ∧ (c.spans.map Prod.fst).Nodup ∧
    (c.spans.map fun p => p.2.size).sum = (c.cells.toList.flatMap Cell.entries).length ∧
    (c.spans.map fun p => p.2.size).sum + c.stats.replaced = c.stats.admitted := by
  have hlength : c.length = n := hc.length
  subst hlength
  refine ⟨spans_eq_loops c, fun width start hwidth hle hstart => ?_, fun span cell => mem_spans,
    pairwise_spans c, (Span.nodup_all c.length).sublist c.sublist_spans, ?_,
    hc.accounted.balanced.1.held⟩
  · have hwithin : (⟨start, start + width⟩ : Span).Within c.length := by
      constructor <;> dsimp only <;> omega
    exact cell_eq_place hwithin
  · have hempty : ∀ cell : Cell κ σ, cell.isEmpty = true → cell.size = 0 := fun cell he =>
      of_decide_eq_true he
    rw [sum_spans c hempty, List.length_flatMap]
    exact congrArg List.sum (List.map_congr_left fun cell _ => cell.size_eq_length)

end Chart

open Forest in
/-- Of two words, the first and both together hold an item each, and the second holds none. -/
theorem Chart.spans_complete_forest :
    ∃ c : Chart Nat Nat, c.Grown replacing 2 3 ∧ (∃ cell, (⟨0, 2⟩, cell) ∈ c.spans) ∧
      (∀ cell, (⟨1, 2⟩, cell) ∉ c.spans) ∧ (c.spans.map fun p => p.2.size).sum = 2 := by
  have hnew : Chart.Grown replacing 2 (⟨2, .replicate _ replacing.cell⟩ : Chart Nat Nat) 0 :=
    .new rfl
  have hgrown := Chart.Grown.offer { table } ⟨0, 2⟩ 0 (item once 3)
    (Chart.Grown.seed { table } (tags.take 2) better 0 hnew)
  obtain ⟨-, -, hlisted, -, -, -, hsum⟩ := spans_complete hgrown
  refine ⟨_, hgrown, ⟨_, (hlisted _ _).mpr ⟨by decide, rfl, List.cons_ne_nil _ _⟩⟩,
    fun cell h => ?_, Nat.add_right_cancel (m := 1) hsum⟩
  obtain ⟨-, hcell, hne⟩ := (hlisted _ _).mp h
  cases hcell
  exact hne rfl

end CategorialChart
