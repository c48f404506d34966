import Mathlib.Data.List.Induction
import Mathlib.Data.List.Nodup

/-! # Lists without their repetitions

A list without its repetitions has each element where it comes first. One more element adds itself
or nothing (`eraseDups_concat`, `eraseDupsBy_concat`), and elements that come again leave no trace
(`eraseDups_append_of_subset`). What repeats what is equality, or any transitive relation. -/

namespace CategorialChart

variable {α : Type}

/-! ### Equal elements -/

section Equal
variable [BEq α] [LawfulBEq α]

theorem eraseDups_concat (l : List α) (a : α) :
    (l ++ [a]).eraseDups = if a ∈ l.eraseDups then l.eraseDups else l.eraseDups ++ [a] := by
  rw [List.eraseDups_append]
  by_cases h : a ∈ l <;> simp [List.removeAll, List.eraseDups_cons, h]

theorem nodup_eraseDups (l : List α) : l.eraseDups.Nodup := by
  induction l using List.reverseRecOn with
  | nil => exact List.nodup_nil
  | append_singleton l a ih =>
    rw [eraseDups_concat]
    split
    · exact ih
    · next ha =>
      rw [← List.concat_eq_append]
      exact ih.concat ha

/-- What comes again leaves no trace. -/
theorem eraseDups_append_of_subset {l again : List α} (h : ∀ a ∈ again, a ∈ l) (more : List α) :
    (l ++ (again ++ more)).eraseDups = (l ++ more).eraseDups := by
  have hnone : again.removeAll l = [] := by
    rw [List.removeAll, List.filter_eq_nil_iff]
    intro a ha
    simp [h a ha]
  rw [List.eraseDups_append, List.eraseDups_append]
  simp only [List.removeAll, List.filter_append] at hnone ⊢
  rw [hnone, List.nil_append]

end Equal

/-! ### Related elements -/

theorem eraseDupsBy_concat {r : α → α → Bool}
    (hr : ∀ a b c, r a b = true → r b c = true → r a c = true) (x : α) : ∀ l : List α,
    (l ++ [x]).eraseDupsBy r = l.eraseDupsBy r ++ if l.any (r x) then [] else [x]
  | [] => by
    rw [List.nil_append, List.eraseDupsBy_cons]
    rfl
  | a :: l => by
    rw [List.cons_append, List.eraseDupsBy_cons, List.eraseDupsBy_cons, List.filter_append]
    by_cases hxa : r x a = true
    · simp [hxa]
    · have hrec := eraseDupsBy_concat hr x (l.filter fun b => r b a = false)
      -- what repeats `a` is no repetition of `x`
      have hany : (l.filter fun b => r b a = false).any (r x) = l.any (r x) := by
        rw [Bool.eq_iff_iff, List.any_eq_true, List.any_eq_true]
        constructor
        · rintro ⟨b, hb, hxb⟩
          exact ⟨b, List.mem_of_mem_filter hb, hxb⟩
        · rintro ⟨b, hb, hxb⟩
          refine ⟨b, List.mem_filter.mpr ⟨hb, ?_⟩, hxb⟩
          by_contra hba
          exact hxa (hr x b a hxb (by simpa using hba))
      rw [hany] at hrec
      simp only [List.filter_cons, List.filter_nil, hxa, decide_true, if_true, List.any_cons,
        Bool.false_or, List.cons_append]
      rw [hrec]
termination_by l => l.length
decreasing_by
  exact Nat.lt_succ_of_le (List.length_filter_le _ _)

/-- Whether something repeats an element is not changed by dropping repetitions. -/
theorem any_eraseDupsBy {r : α → α → Bool}
    (hr : ∀ a b c, r a b = true → r b c = true → r a c = true) (x : α) (l : List α) :
    (l.eraseDupsBy r).any (r x) = l.any (r x) := by
  induction l using List.reverseRecOn with
  | nil => rfl
  | append_singleton l a ih =>
    rw [eraseDupsBy_concat hr, List.any_append, List.any_append, ih]
    by_cases ha : l.any (r a) = true
    · rw [if_pos ha, List.any_nil, Bool.or_false, List.any_cons, List.any_nil, Bool.or_false]
      by_cases hxa : r x a = true
      · obtain ⟨b, hb, hab⟩ := List.any_eq_true.mp ha
        have hx : l.any (r x) = true := List.any_eq_true.mpr ⟨b, hb, hr x a b hxa hab⟩
        rw [hx, Bool.true_or]
      · rw [Bool.not_eq_true] at hxa
        rw [hxa, Bool.or_false]
    · rw [if_neg ha]

end CategorialChart
