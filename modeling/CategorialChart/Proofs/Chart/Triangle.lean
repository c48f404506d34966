import CategorialChart.Proofs.Session.Cells
import Mathlib.Algebra.GroupWithZero.Nat
import Mathlib.Data.List.Nodup

/-! # The triangle of spans

The spans of a sentence and the places of its triangle correspond one to one (`Span.perm_index`). So
what is summed over the spans that hold items is summed over the cells (`Chart.sum_spans`). -/

namespace CategorialChart

namespace Span

theorem mem_all {n : Nat} {s : Span} : s ∈ all n ↔ s.Within n := by
  unfold all Within
  simp only [List.mem_flatMap, List.mem_map, List.mem_range]
  constructor
  · rintro ⟨w, hw, start, hstart, rfl⟩
    exact ⟨by dsimp only; omega, by dsimp only; omega⟩
  · rintro ⟨h1, h2⟩
    refine ⟨s.stop - s.start - 1, by omega, s.start, by omega, ?_⟩
    cases s
    simp only [Span.mk.injEq, true_and] at h1 h2 ⊢
    omega

theorem nodup_all (n : Nat) : (all n).Nodup := by
  unfold all
  rw [List.nodup_flatMap]
  refine ⟨fun w _ => ?_, ?_⟩
  · refine List.Nodup.map (fun a b h => ?_) List.nodup_range
    exact congrArg Span.start h
  · refine List.nodup_range.imp fun {w v} hne => ?_
    intro s hs ht
    obtain ⟨a, -, rfl⟩ := List.mem_map.mp hs
    obtain ⟨b, -, hb⟩ := List.mem_map.mp ht
    simp only [Span.mk.injEq] at hb
    omega

/-- Every place of the triangle is that of a span. -/
theorem exists_index : ∀ {n i : Nat}, i < spanCount n → ∃ s : Span, s.Within n ∧ s.index = i
  | 0, i, h => by simp [spanCount] at h
  | n + 1, i, h => by
    rw [spanCount_succ] at h
    by_cases hi : i < spanCount n
    · obtain ⟨s, ⟨h1, h2⟩, rfl⟩ := exists_index hi
      exact ⟨s, ⟨h1, by omega⟩, rfl⟩
    · have hstart : i - spanCount n < n + 1 := by omega
      refine ⟨⟨i - spanCount n, n + 1⟩, ⟨hstart, le_refl _⟩, ?_⟩
      rw [index_eq hstart, Nat.add_sub_cancel]
      exact Nat.add_sub_cancel' (Nat.le_of_not_lt hi)

/-- **The places of the spans** are all places of the triangle, each once. -/
theorem perm_index (n : Nat) : ((all n).map index).Perm (List.range (spanCount n)) := by
  have hnodup : ((all n).map index).Nodup := by
    refine List.Nodup.map_on (fun s hs s' hs' h => ?_) (nodup_all n)
    exact index_inj (mem_all.mp hs).1 (mem_all.mp hs').1 h
  refine (List.perm_ext_iff_of_nodup hnodup List.nodup_range).mpr fun i => ?_
  rw [List.mem_map, List.mem_range]
  constructor
  · rintro ⟨s, hs, rfl⟩
    exact index_lt (mem_all.mp hs)
  · intro hi
    obtain ⟨s, hs, rfl⟩ := exists_index hi
    exact ⟨s, mem_all.mpr hs, rfl⟩

end Span

namespace Chart

variable {κ σ : Type}

theorem cell_of_mem_all {c : Chart κ σ} {span : Span} (h : span ∈ Span.all c.length) :
    ∃ cell, c.cell span = .ok cell ∧ c.cells.toList[span.index]? = some cell := by
  have hs := Span.mem_all.mp h
  have hlt := Span.index_lt hs
  refine ⟨c.cells[span.index], dif_pos hs, ?_⟩
  simp [hlt]

theorem sum_filterMap {α β : Type} {g : α → Option β} {f : β → Nat} {h : α → Nat} :
    ∀ {l : List α}, (∀ a ∈ l, ((g a).map f).getD 0 = h a) →
      ((l.filterMap g).map f).sum = (l.map h).sum
  | [], _ => rfl
  | a :: l, hl => by
    have hfirst := hl a List.mem_cons_self
    have hrest := sum_filterMap fun b hb => hl b (List.mem_cons_of_mem a hb)
    rw [List.map_cons, List.sum_cons, ← hfirst, ← hrest, List.filterMap_cons]
    rcases g a with _ | b
    · exact (Nat.zero_add _).symm
    · rfl

/-- **A sum over the spans that hold items** is a sum over all cells, if empty cells add nothing. -/
theorem sum_spans (c : Chart κ σ) {f : Cell κ σ → Nat}
    (hf : ∀ cell, cell.isEmpty = true → f cell = 0) :
    (c.spans.map fun p => f p.2).sum = (c.cells.toList.map f).sum := by
  -- both are the sum over the places of the spans
  have hspans : (c.spans.map fun p => f p.2).sum =
      ((Span.all c.length).map fun span => ((c.cells.toList.map f)[span.index]?).getD 0).sum := by
    refine sum_filterMap fun span hspan => ?_
    obtain ⟨cell, hcell, hplace⟩ := cell_of_mem_all hspan
    rw [List.getElem?_map, hplace]
    by_cases he : cell.isEmpty = true
    · simp [hcell, he, hf cell he]
    · simp [hcell, he]
  have hplaces := (Span.perm_index c.length).map fun i => ((c.cells.toList.map f)[i]?).getD 0
  have hcells : (List.range (spanCount c.length)).map
      (fun i => ((c.cells.toList.map f)[i]?).getD 0) = c.cells.toList.map f := by
    refine List.ext_getElem (by simp) fun i h1 _ => ?_
    have hi : i < spanCount c.length := by simpa using h1
    simp [hi]
  rw [List.map_map, hcells] at hplaces
  exact hspans.trans hplaces.sum_nat

end Chart

end CategorialChart
