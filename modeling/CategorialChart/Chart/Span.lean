/-!
# Spans

A span is a stretch of words of a sentence. The spans of a sentence stand in a triangle, in the
order of their ends and then of their starts:

    0..1
    0..2  1..2
    0..3  1..3  2..3

* `Span.Within`: the span is not empty and lies in a sentence of `n` words.
* `Span.index`: the place of a span in the triangle, the same for all sentences that it lies in.
* `Span.index_lt`: the triangle of a sentence has a place for each of its spans.
-/

namespace CategorialChart

/-- The words from position `start` up to but not including `stop`. -/
structure Span where
  /-- The position of the first word. -/
  start : Nat
  /-- The position after the last word. -/
  stop : Nat
deriving DecidableEq, Repr

/-- The number of spans of a sentence of `n` words. -/
def spanCount (n : Nat) : Nat := n * (n + 1) / 2

theorem spanCount_succ (n : Nat) : spanCount (n + 1) = spanCount n + (n + 1) := by
  have h : (n + 1) * (n + 1 + 1) = n * (n + 1) + 2 * (n + 1) := by
    simp only [Nat.mul_add, Nat.add_mul]
    omega
  rw [spanCount, spanCount, h, Nat.add_mul_div_left _ _ (by decide)]

theorem spanCount_mono {m n : Nat} (h : m ≤ n) : spanCount m ≤ spanCount n := by
  induction h with
  | refl => exact Nat.le_refl _
  | step _ ih => exact Nat.le_trans ih (by rw [spanCount_succ]; omega)

namespace Span

/-- The span holds a word and lies in a sentence of `n` words. -/
def Within (s : Span) (n : Nat) : Prop := s.start < s.stop ∧ s.stop ≤ n

instance (s : Span) (n : Nat) : Decidable (s.Within n) :=
  inferInstanceAs (Decidable (s.start < s.stop ∧ s.stop ≤ n))

/-- The place of a span in the triangle. -/
def index (s : Span) : Nat := s.stop * (s.stop - 1) / 2 + s.start

theorem index_eq {s : Span} (h : s.start < s.stop) : s.index = spanCount (s.stop - 1) + s.start := by
  rw [index, spanCount, Nat.mul_comm, Nat.sub_add_cancel (by omega)]

theorem index_lt {s : Span} {n : Nat} (h : s.Within n) : s.index < spanCount n := by
  obtain ⟨hs, hn⟩ := h
  have h1 := spanCount_succ (s.stop - 1)
  have h2 := spanCount_mono hn
  rw [Nat.sub_add_cancel (by omega)] at h1
  rw [index_eq hs]
  omega

/-- The span of the single word at a position. -/
def word (position : Nat) : Span := ⟨position, position + 1⟩

/-- The spans of a sentence of `n` words, the narrowest first, and from left to right within a
width. -/
def all (n : Nat) : List Span :=
  (List.range n).flatMap fun w => (List.range (n - w)).map fun start => ⟨start, start + w + 1⟩

end Span

end CategorialChart
