import CategorialChart.Text.Blank
import Mathlib.Data.List.TakeWhile

/-! # Lines and trimmed lines

What `Text.splitLines` and `Text.trim` do, said without them. A text is a line, or a line, a line
feed and a text (`exists_line`), and its pieces are those lines. A line is its trimmed text with
blanks around it (`exists_trim`), and a text without blanks is what trimming leaves of any line that
has it between blanks (`trim_padded`). -/

namespace CategorialChart.Text

/-! ### Lines -/

theorem splitLines_ne_nil (cs : List Char) : splitLines cs ≠ [] := by
  cases cs with
  | nil => exact List.cons_ne_nil _ _
  | cons c cs =>
    rw [splitLines]
    split
    · exact List.cons_ne_nil _ _
    · split <;> exact List.cons_ne_nil _ _

theorem splitLines_newline (cs : List Char) : splitLines ('\n' :: cs) = [] :: splitLines cs := by
  rw [splitLines]
  split
  · next h => exact absurd h (splitLines_ne_nil cs)
  · next h => rw [h, if_pos rfl]

theorem splitLines_cons {c : Char} {cs line : List Char} {lines : List (List Char)} (hc : c ≠ '\n')
    (h : splitLines cs = line :: lines) : splitLines (c :: cs) = (c :: line) :: lines := by
  rw [splitLines, h]
  exact if_neg hc

/-- **A line feed between two texts** separates their lines. -/
theorem splitLines_append (a b : List Char) :
    splitLines (a ++ '\n' :: b) = splitLines a ++ splitLines b := by
  induction a with
  | nil => exact splitLines_newline b
  | cons c a ih =>
    obtain ⟨line, lines, ha⟩ := List.exists_cons_of_ne_nil (splitLines_ne_nil a)
    rw [ha, List.cons_append] at ih
    by_cases hc : c = '\n'
    · subst hc
      rw [List.cons_append, splitLines_newline, splitLines_newline, ih, ha]
      rfl
    · rw [List.cons_append, splitLines_cons hc ih, splitLines_cons hc ha]
      rfl

theorem splitLines_of_not_mem {cs : List Char} (h : '\n' ∉ cs) : splitLines cs = [cs] := by
  induction cs with
  | nil => rfl
  | cons c cs ih =>
    rw [List.mem_cons, not_or] at h
    exact splitLines_cons (Ne.symm h.1) (ih h.2)

/-- **The first line of a text**, with the text after it if there is more. -/
theorem exists_line (cs : List Char) :
    '\n' ∉ cs ∨ ∃ line rest, '\n' ∉ line ∧ cs = line ++ '\n' :: rest := by
  by_cases h : '\n' ∈ cs
  · obtain ⟨line, rest, hcs, hline⟩ := List.eq_append_cons_of_mem h
    exact Or.inr ⟨line, rest, hline, hcs⟩
  · exact Or.inl h

/-! ### Blanks -/

/-- The text consists of blanks. -/
def Blanks (s : List Char) : Prop := ∀ c ∈ s, isBlank c = true

instance (s : List Char) : Decidable (Blanks s) :=
  decidable_of_iff (s.all isBlank = true) List.all_eq_true

theorem Blanks.append {s t : List Char} (hs : Blanks s) (ht : Blanks t) : Blanks (s ++ t) :=
  List.forall_mem_append.mpr ⟨hs, ht⟩

theorem blanks_return : Blanks ['\r'] := by
  intro c hc
  rw [List.mem_singleton.mp hc]
  decide

theorem isBlank_of_isAlpha {c : Char} (h : c.isAlpha = true) : isBlank c = false := by
  have hc : 65 ≤ c.toNat ∧ c.toNat ≤ 90 ∨ 97 ≤ c.toNat ∧ c.toNat ≤ 122 := by
    rcases (Bool.or_eq_true _ _).mp h with hupper | hlower
    · exact Or.inl (of_decide_eq_true hupper)
    · obtain ⟨hfrom, hto⟩ := Bool.and_eq_true_iff.mp hlower
      exact Or.inr ⟨of_decide_eq_true hfrom, of_decide_eq_true hto⟩
  rw [isBlank, List.any_eq_false]
  intro r hr
  simp only [blankRanges, List.mem_cons, List.not_mem_nil, or_false] at hr
  rcases hr with rfl | rfl | rfl | rfl | rfl | rfl | rfl | rfl | rfl | rfl <;> simp <;> omega

/-! ### Trimming -/

theorem trim_of_blanks {s : List Char} (h : Blanks s) : trim s = [] := by
  rw [trim, List.dropWhile_eq_nil_iff.mpr h]
  rfl

/-- What a line is without the blanks in front of its first character. -/
theorem trim_cons {before : List Char} {c : Char} (hbefore : Blanks before)
    (hc : isBlank c = false) (s : List Char) : ∃ t, trim (before ++ c :: s) = c :: t := by
  rw [trim, List.dropWhile_append_of_pos hbefore, List.dropWhile_cons_of_neg (by simp [hc]),
    List.reverse_cons, List.dropWhile_append]
  split
  · exact ⟨[], by simp [hc]⟩
  · exact ⟨_, by rw [List.reverse_append]; rfl⟩

/-- What begins with a text without blanks begins with no blank. -/
theorem dropWhile_isBlank {s : List Char} (hs : s ≠ []) (hnone : ∀ c ∈ s, isBlank c = false)
    (rest : List Char) : (s ++ rest).dropWhile isBlank = s ++ rest := by
  obtain ⟨c, s, rfl⟩ := List.exists_cons_of_ne_nil hs
  rw [List.cons_append, List.dropWhile_cons_of_neg (by simp [hnone c List.mem_cons_self])]

/-- **A text without blanks** is what trimming leaves of it between blanks. -/
theorem trim_padded {before s after : List Char} (hbefore : Blanks before) (hafter : Blanks after)
    (hs : s ≠ []) (hnone : ∀ c ∈ s, isBlank c = false) : trim (before ++ s ++ after) = s := by
  have hback : s.reverse.dropWhile isBlank = s.reverse := by
    have hne : s.reverse ≠ [] := by simpa using hs
    have h := dropWhile_isBlank hne (fun c hc => hnone c (List.mem_reverse.mp hc)) []
    rwa [List.append_nil] at h
  rw [trim, List.append_assoc, List.dropWhile_append_of_pos hbefore, dropWhile_isBlank hs hnone,
    List.reverse_append, List.dropWhile_append_of_pos fun c hc => hafter c (List.mem_reverse.mp hc),
    hback, List.reverse_reverse]

/-- **A line is its trimmed text** between blanks. -/
theorem exists_trim (s : List Char) :
    ∃ before after, Blanks before ∧ Blanks after ∧ s = before ++ trim s ++ after := by
  have htake : ∀ l : List Char, Blanks (l.takeWhile isBlank) := fun l c hc =>
    List.mem_takeWhile_imp hc
  refine ⟨s.takeWhile isBlank, ((s.dropWhile isBlank).reverse.takeWhile isBlank).reverse, htake s,
    fun c hc => htake _ c (List.mem_reverse.mp hc), ?_⟩
  rw [trim, List.append_assoc, ← List.reverse_append, List.takeWhile_append_dropWhile,
    List.reverse_reverse, List.takeWhile_append_dropWhile]

end CategorialChart.Text
