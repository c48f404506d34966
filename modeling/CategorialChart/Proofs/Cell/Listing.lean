import CategorialChart.Proofs.Cell.Counters
import Mathlib.Data.Finset.Card
import Mathlib.Data.List.Induction

/-! # How a cell lists its keys

A cell that keeps its items by keys has a group for each key that was offered, whatever became of
the offers, and no other. The groups stand in the order of the first offers of their keys, or in the
order of the keys themselves if the policy says so (`Ascending`).

* `ascending_insertByKey`: an empty group that is put between groups in ascending order.
* `Listed`: the keys of a cell, given those that were offered. `Listed.answer`: one offer more. -/

namespace CategorialChart.Cell

variable {κ σ : Type}

/-! ### Keys in ascending order -/

section Ascending
variable [Ord κ]

/-- Each key comes strictly before those after it. -/
def Ascending (keys : List κ) : Prop := keys.Pairwise fun k k' => compare k k' = .lt

variable [Std.TransOrd κ] [Std.LawfulEqOrd κ]

theorem compare_of_not_lt {k k' : κ} (h : compare k k' ≠ .lt) (hne : k ≠ k') :
    compare k' k = .lt := by
  rcases hcmp : compare k k' with _ | _ | _
  · exact absurd hcmp h
  · exact absurd (Std.LawfulEqCmp.eq_of_compare hcmp) hne
  · exact Std.OrientedCmp.gt_iff_lt.mp hcmp

theorem ascending_insertByKey (g : Group κ σ) : ∀ {gs : List (Group κ σ)},
    Ascending (gs.map Group.key) → g.key ∉ gs.map Group.key →
      Ascending ((insertByKey g gs).map Group.key)
  | [], _, _ => List.pairwise_singleton _ _
  | h :: hs, hgs, hnew => by
    rw [List.map_cons, List.mem_cons, not_or] at hnew
    obtain ⟨hfirst, hrest⟩ := List.pairwise_cons.mp hgs
    rw [insertByKey]
    split
    · next hlt =>
      refine List.pairwise_cons.mpr ⟨fun k hk => ?_, hgs⟩
      rcases List.mem_cons.mp hk with rfl | hk
      · exact hlt
      · exact Std.TransCmp.lt_trans hlt (hfirst k hk)
    · next hlt =>
      refine List.pairwise_cons.mpr ⟨fun k hk => ?_, ascending_insertByKey g hrest hnew.2⟩
      -- the group stands somewhere among those after the first
      obtain ⟨l, r, hl, hr⟩ := insertByKey_eq g hs
      rw [hr, List.map_append, List.map_cons, List.mem_append, List.mem_cons] at hk
      rw [hl, List.map_append] at hfirst
      rcases hk with hk | rfl | hk
      · exact hfirst k (List.mem_append_left _ hk)
      · exact compare_of_not_lt hlt hnew.1
      · exact hfirst k (List.mem_append_right _ hk)

end Ascending

variable [DecidableEq κ] [Ord κ] {c : Cell κ σ} {keys : List κ}

theorem mem_keys_withGroup {key k : κ} :
    k ∈ (c.withGroup key).groups.map Group.key ↔ k ∈ c.groups.map Group.key ∨ k = key := by
  unfold Cell.withGroup
  rcases groupsWith_cases c key with ⟨hkey, he⟩ | ⟨-, l, r, hg, he⟩
  · rw [he]
    refine ⟨Or.inl, fun h => ?_⟩
    rcases h with h | rfl
    · exact h
    · exact hkey
  · rw [he, hg]
    simp only [List.map_append, List.map_cons, List.mem_append, List.mem_cons]
    tauto

theorem ascending_withGroup [Std.TransOrd κ] [Std.LawfulEqOrd κ]
    (ho : c.policy.has .orderedKeys = true) (h : Ascending (c.groups.map Group.key)) (key : κ) :
    Ascending ((c.withGroup key).groups.map Group.key) := by
  by_cases hkey : key ∈ c.groups.map Group.key
  · rw [withGroup_of_mem hkey]
    exact h
  · have hnew : ¬ (c.groups.any fun g => g.key = key) = true := by simpa using hkey
    unfold Cell.withGroup groupsWith
    rw [if_neg hnew, if_pos ho]
    exact ascending_insertByKey { key := key } h hkey

/-! ### The keys that were offered -/

/-- **The keys of a cell** to which items were offered under `keys`, in this order. -/
structure Listed (c : Cell κ σ) (keys : List κ) : Prop where
  keyed : c.Keyed
  mem : ∀ k, k ∈ c.groups.map Group.key ↔ k ∈ keys
  first : c.policy.has .orderedKeys = false → c.groups.map Group.key = keys.eraseDups
  ascending : c.policy.has .orderedKeys = true → Ascending (c.groups.map Group.key)

theorem listed_empty (policy : Policy σ) : ({ policy := policy } : Cell κ σ).Listed [] where
  keyed := keyed_empty policy
  mem _ := Iff.rfl
  first _ := rfl
  ascending _ := List.Pairwise.nil

/-- As many groups as different keys. -/
theorem Listed.length_groups (hc : c.Listed keys) : c.groups.length = keys.toFinset.card := by
  have hset : (c.groups.map Group.key).toFinset = keys.toFinset := by
    ext k
    rw [List.mem_toFinset, List.mem_toFinset, hc.mem]
  rw [← hset, List.toFinset_card_of_nodup hc.keyed, List.length_map]

section Offers
variable [LT σ] [DecidableLT σ] [Mul σ]

/-- **The keys of a cell** that does not order them stand in the order of their first offers. -/
theorem keys_offerEach {policy : Policy σ} (hp : policy.has .keyed = true)
    (ho : policy.has .orderedKeys = false) (offers : List (Hasher × κ × Item κ σ)) :
    (({ policy := policy } : Cell κ σ).offerEach offers).2.groups.map Group.key =
      (offers.map (·.2.1)).eraseDups := by
  induction offers using List.reverseRecOn with
  | nil => rfl
  | append_singleton offers o ih =>
    have hpolicy := policy_offerEach ({ policy := policy } : Cell κ σ) offers
    rw [offerEach_concat, keys_answer (by rw [hpolicy, hp]) (by rw [hpolicy, ho]), ih,
      List.map_append, List.map_singleton, eraseDups_concat]

/-- **The entries of a cell** that does not order its keys are those of each key, one key after
another in the order of their first offers. -/
theorem entries_offerEach {policy : Policy σ} (hp : policy.has .keyed = true)
    (ho : policy.has .orderedKeys = false) (offers : List (Hasher × κ × Item κ σ)) :
    (({ policy := policy } : Cell κ σ).offerEach offers).2.entries =
      (offers.map (·.2.1)).eraseDups.flatMap
        (({ policy := policy } : Cell κ σ).offerEach offers).2.entriesFor := by
  have hc := (wellKept_empty policy : WellKept ({ policy := policy } : Cell κ σ)).offerEach offers
  rw [← keys_offerEach hp ho]
  exact entries_eq (hc.keyed (by rw [policy_offerEach, hp]))

end Offers

variable [LT σ] [DecidableLT σ] [Mul σ] [Std.TransOrd κ] [Std.LawfulEqOrd κ]

/-- **An offer adds its key**, whatever becomes of it. -/
theorem Listed.answer (hc : c.Listed keys) (hp : c.policy.has .keyed = true)
    (f : Except TermError Fingerprint) (key : κ) (item : Item κ σ) :
    (c.answer f key item).2.Listed (keys ++ [key]) where
  keyed := hc.keyed.answer hp f key item
  mem k := by
    rw [keys_answer_eq hp, mem_keys_withGroup, hc.mem, List.mem_append, List.mem_singleton]
  first ho := by
    rw [policy_answer] at ho
    rw [keys_answer hp ho, hc.first ho, eraseDups_concat]
  ascending ho := by
    rw [policy_answer] at ho
    rw [keys_answer_eq hp]
    exact ascending_withGroup ho (hc.ascending ho) key

end CategorialChart.Cell
