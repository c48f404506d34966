import CategorialChart.Proofs.Cell.First
import Mathlib.Algebra.BigOperators.Group.Finset.Basic

/-! # Three views of a cell

A cell shows all of its items, those of a key, and how many they are. The three are views of one
list, `Cell.labelled`: the items, each with the key of its group. Every offer has such a key as well
(`Policy.grouped`), and under each key the cell holds some of the items offered under it, in the
order of arrival.

* `size_offerEach`: the items of a cell counted key by key.
* `entriesFor_sublist`: what the cell holds under a key was offered under it, item by item.
* `views_agree`: the views after any offers, and the order of the entries where there is one. -/

namespace CategorialChart

variable {κ σ : Type}

/-- The items of offers, each with the key of its group. -/
def Policy.grouped (p : Policy σ) (offers : List (Hasher × κ × Item κ σ)) : List (κ × Item κ σ) :=
  offers.map fun o => (p.groupKey o.2, o.2.2)

theorem Policy.items_grouped (p : Policy σ) (offers : List (Hasher × κ × Item κ σ)) :
    (p.grouped offers).map Prod.snd = offers.map (·.2.2) :=
  List.map_map

/-- A policy with keys groups offers by the keys that they are made under. -/
theorem Policy.keys_grouped {p : Policy σ} (hp : p.has .keyed = true)
    (offers : List (Hasher × κ × Item κ σ)) :
    (p.grouped offers).map Prod.fst = offers.map (·.2.1) := by
  rw [grouped, List.map_map]
  exact List.map_congr_left fun o _ => if_pos hp

/-- Items with keys, counted key by key. -/
theorem length_eq_sum_under [DecidableEq κ] {l : List (κ × Item κ σ)} {keys : Finset κ}
    (h : ∀ o ∈ l, o.1 ∈ keys) : l.length = ∑ k ∈ keys, (under k l).length := by
  have hcount : ∀ k, (under k l).length = (l.map Prod.fst : Multiset κ).count k := by
    intro k
    rw [under, List.length_map, Multiset.coe_count, List.count, List.countP_map,
      List.countP_eq_length_filter]
    rfl
  have hmem : ∀ k ∈ (l.map Prod.fst : Multiset κ), k ∈ keys := by
    intro k hk
    obtain ⟨o, ho, rfl⟩ := List.mem_map.mp (Multiset.mem_coe.mp hk)
    exact h o ho
  rw [Finset.sum_congr rfl fun k _ => hcount k, Multiset.sum_count_eq_card hmem, Multiset.coe_card,
    List.length_map]

namespace Cell

/-- **The entries of a cell**, each with the key of its group. -/
def labelled (c : Cell κ σ) : List (κ × Item κ σ) :=
  c.groups.flatMap fun g => g.items.map (Prod.mk g.key)

/-! ### Views of the labelled entries -/

theorem labelled_map_snd (c : Cell κ σ) : c.labelled.map Prod.snd = c.entries := by
  unfold labelled entries
  rw [List.map_flatMap]
  refine List.flatMap_congr fun g _ => ?_
  rw [List.map_map]
  exact List.map_id g.items

variable [DecidableEq κ]

theorem entriesFor_eq_under (c : Cell κ σ) (k : κ) : c.entriesFor k = under k c.labelled := by
  unfold entriesFor groupsFor under labelled
  induction c.groups with
  | nil => rfl
  | cons g gs ih =>
    rw [List.flatMap_cons, List.filter_append, List.map_append, ← ih, List.filter_map,
      List.filter_cons]
    by_cases hk : g.key = k
    · simp [hk, Function.comp_def]
    · simp [hk, Function.comp_def]

/-- The size of a cell is the number of its items, key by key. -/
theorem size_eq_sum {c : Cell κ σ} {keys : Finset κ} (h : ∀ o ∈ c.labelled, o.1 ∈ keys) :
    c.size = ∑ k ∈ keys, (c.entriesFor k).length := by
  rw [size_eq_length, ← labelled_map_snd, List.length_map, length_eq_sum_under h]
  exact Finset.sum_congr rfl fun k _ => by rw [entriesFor_eq_under]

/-! ### What a cell holds was offered to it -/

section Offers
variable [Ord κ] [LT σ] [DecidableLT σ] [Mul σ] {c : Cell κ σ}

/-- An answer leaves under each key what was held there, with the item at its end, or the item
alone, or nothing new. -/
theorem WellKept.entriesFor_answer (hc : c.WellKept) (f : Except TermError Fingerprint) (key : κ)
    (item : Item κ σ) (k : κ) :
    (c.answer f key item).2.entriesFor k = c.entriesFor k ∨
      c.policy.groupKey (key, item) = k ∧
        ((c.answer f key item).2.entriesFor k = c.entriesFor k ++ [item] ∨
          (c.answer f key item).2.entriesFor k = [item]) := by
  rcases hc.answer_entries f key item with
    ⟨why, -, -, ha⟩ | ⟨e, ha⟩ | ⟨g, -, -, -, ha, -⟩ | ⟨old, -, -, hp, -, hold, ha, -⟩ <;> rw [ha]
  · exact Or.inl rfl
  · exact Or.inl (entriesFor_withGroup c key k)
  · have hkept := entriesFor_keep hc.keyed key item g k
    by_cases hk : c.policy.groupKey (key, item) = k
    · rw [if_pos hk] at hkept
      exact Or.inr ⟨hk, Or.inl hkept⟩
    · rw [if_neg hk, List.append_nil] at hkept
      exact Or.inl hkept
  · have hkeyed := hc.keyed (by rw [hp]; rfl)
    have hreplaced := group_replace hkeyed (mem_keys_of_entriesFor (by rw [hold]; simp)) item k
    dsimp only
    rw [entriesFor_eq (hkeyed.replace key item), hreplaced]
    by_cases hk : k = key
    · refine Or.inr ⟨?_, Or.inr (by rw [if_pos hk])⟩
      rw [hk, Policy.groupKey, hp]
      rfl
    · rw [if_neg hk, entriesFor_eq hkeyed]
      exact Or.inl rfl

/-- **What a cell holds under a key** are items that were offered under it, each offer at most once
and in the order of arrival. -/
theorem entriesFor_sublist (policy : Policy σ) (offers : List (Hasher × κ × Item κ σ)) (k : κ) :
    ((({ policy := policy } : Cell κ σ).offerEach offers).2.entriesFor k).Sublist
      (under k (policy.grouped offers)) := by
  induction offers using List.reverseRecOn with
  | nil => exact List.Sublist.slnil
  | append_singleton offers o ih =>
    have hc := (wellKept_empty policy : WellKept ({ policy := policy } : Cell κ σ)).offerEach offers
    have hstep := hc.entriesFor_answer (o.1.fingerprint o.2.2.derivation).1 o.2.1 o.2.2 k
    rw [policy_offerEach] at hstep
    rw [offerEach_concat, Policy.grouped, List.map_append, List.map_singleton, under_concat,
      ← Policy.grouped]
    rcases hstep with h | ⟨hk, h | h⟩
    · rw [h]
      exact ih.trans (List.sublist_append_left _ _)
    · rw [h, if_pos hk]
      exact ih.append (List.Sublist.refl _)
    · rw [h, if_pos hk]
      exact List.sublist_append_right _ _

/-- The keys of the labelled entries are keys of offers. -/
theorem mem_keys_of_labelled {policy : Policy σ} {offers : List (Hasher × κ × Item κ σ)}
    {o : κ × Item κ σ} (h : o ∈ (({ policy := policy } : Cell κ σ).offerEach offers).2.labelled) :
    o.1 ∈ (policy.grouped offers).map Prod.fst := by
  have hunder : under o.1 (({ policy := policy } : Cell κ σ).offerEach offers).2.labelled ≠ [] :=
    mt under_eq_nil.mp (not_not_intro (List.mem_map_of_mem h))
  by_contra hn
  have hsub := entriesFor_sublist policy offers o.1
  rw [under_eq_nil.mpr hn, entriesFor_eq_under, List.sublist_nil] at hsub
  exact hunder hsub

/-- **The size of a cell** counts the items under each key that was offered. -/
theorem size_offerEach (policy : Policy σ) (offers : List (Hasher × κ × Item κ σ)) :
    (({ policy := policy } : Cell κ σ).offerEach offers).2.size =
      ∑ k ∈ ((policy.grouped offers).map Prod.fst).toFinset,
        ((({ policy := policy } : Cell κ σ).offerEach offers).2.entriesFor k).length :=
  size_eq_sum fun _ ho => List.mem_toFinset.mpr (mem_keys_of_labelled ho)

/-! ### The order of the entries -/

/-- A cell without keys holds the items of all offers, in the order of arrival. -/
theorem entries_unbounded (offers : List (Hasher × κ × Item κ σ)) :
    (({ policy := .unbounded } : Cell κ σ).offerEach offers).2.entries = offers.map (·.2.2) := by
  induction offers using List.reverseRecOn with
  | nil => rfl
  | append_singleton offers o ih =>
    have hpolicy := policy_offerEach ({ policy := .unbounded } : Cell κ σ) offers
    generalize hc : (({ policy := .unbounded } : Cell κ σ).offerEach offers).2 = c at ih hpolicy
    have hjudge : c.policy.judge (c.entriesFor o.2.1) o.2.2 = .keep := by rw [hpolicy]; rfl
    have hanswer := answer_of_keep (by rw [hpolicy]; rfl) hjudge
      (o.1.fingerprint o.2.2.derivation).1
    rw [offerEach_concat, hc, hanswer, List.map_append, ← ih]
    unfold entries keep
    rw [hpolicy, List.flatMap_append]
    rfl

omit [LT σ] [DecidableLT σ] [Mul σ] [Ord κ] [DecidableEq κ] in
/-- Where no group has two items, no key stands twice among the labelled entries. -/
theorem keys_labelled_sublist (h : ∀ g ∈ c.groups, g.items.length ≤ 1) :
    (c.labelled.map Prod.fst).Sublist (c.groups.map Group.key) := by
  unfold labelled
  generalize c.groups = gs at h ⊢
  induction gs with
  | nil => exact List.Sublist.slnil
  | cons g gs ih =>
    have hrest := ih fun g' hg' => h g' (List.mem_cons_of_mem g hg')
    have hone := h g List.mem_cons_self
    rw [List.flatMap_cons, List.map_append, List.map_cons]
    rcases hitems : g.items with _ | ⟨x, _ | ⟨y, xs⟩⟩
    · exact hrest.trans (List.sublist_cons_self _ _)
    · exact hrest.cons_cons g.key
    · rw [hitems, List.length_cons, List.length_cons] at hone
      omega

variable [Std.TransOrd κ] [Std.LawfulEqOrd κ]

/-- A cell that orders its keys lists its items in the strict order of the keys. -/
theorem ascending_labelled (offers : List (Hasher × κ × Item κ σ)) :
    Ascending ((({ policy := .oneBestOrdered } : Cell κ σ).offerEach offers).2.labelled.map
      Prod.fst) := by
  have hkeyed : (.oneBestOrdered : Policy σ).has .keyed = true := rfl
  obtain ⟨-, hc⟩ := firstHeld_of_refuses hkeyed (fun _ => Policy.judge_occupied (Or.inr rfl)) offers
    nofun
  refine List.Pairwise.sublist (keys_labelled_sublist fun g hg => ?_) (hc.listed.ascending ?_)
  · rw [← entriesFor_key hc.listed.keyed hg, hc.entriesFor, List.length_take]
    exact Nat.min_le_left _ _
  · rw [hc.policy_eq]
    rfl

/-- **The three views of a cell agree**, whatever was offered to it and whichever offers failed. Its
size is the number of its entries, and the sum of the numbers of items under the keys of the offers;
it is empty if there are no entries. The items under a key are the entries with this key, in the
order of the entries, and they are some of those offered under it, in the order of arrival. Without
keys, the entries are all that was offered. If the policy orders the keys, the entries stand in
their strict order. With an n-best policy they are those of each key, one key after another in the
order of their first offers. -/
theorem views_agree (policy : Policy σ) (offers : List (Hasher × κ × Item κ σ)) :
    let c := (({ policy := policy } : Cell κ σ).offerEach offers).2
    let past := policy.grouped offers
    let keys := past.map Prod.fst
    (c.size = c.entries.length ∧ c.size = ∑ k ∈ keys.toFinset, (c.entriesFor k).length ∧
      (c.isEmpty = true ↔ c.entries = [])) ∧
    (∃ held : List (κ × Item κ σ), c.entries = held.map Prod.snd ∧
      (∀ k, c.entriesFor k = under k held) ∧ (∀ k, (under k held).Sublist (under k past)) ∧
      (policy = .oneBestOrdered → Ascending (held.map Prod.fst))) ∧
    (policy = .unbounded → c.entries = past.map Prod.snd) ∧
    ∀ limit beam, policy = .nBest limit beam ∨ policy = .nBestHashed limit beam →
      c.entries = keys.eraseDups.flatMap c.entriesFor := by
  intro c past keys
  refine ⟨⟨c.size_eq_length, size_offerEach policy offers, ?_⟩,
    ⟨c.labelled, c.labelled_map_snd.symm, c.entriesFor_eq_under, fun k => ?_, ?_⟩, ?_,
    fun limit beam hp => ?_⟩
  · rw [isEmpty, decide_eq_true_iff, size_eq_length, List.length_eq_zero_iff]
  · rw [← entriesFor_eq_under]
    exact entriesFor_sublist policy offers k
  · rintro rfl
    exact ascending_labelled offers
  · rintro rfl
    exact (entries_unbounded offers).trans (Policy.items_grouped .unbounded offers).symm
  · have hkeyed : policy.has .keyed = true := by rcases hp with rfl | rfl <;> rfl
    have hordered : policy.has .orderedKeys = false := by rcases hp with rfl | rfl <;> rfl
    have hoffered : keys = offers.map (·.2.1) := Policy.keys_grouped hkeyed offers
    rw [hoffered]
    exact entries_offerEach hkeyed hordered offers

end Offers

end Cell

open Forest in
/-- The items have another key than those that they are offered under. -/
theorem Cell.views_agree_forest :
    (({ policy := .nBest 1 1 } : Cell Nat Nat).offerEach contested).2.entries =
        [item once 3, item broken 9, item twice 5] ∧
      (({ policy := .nBest 1 1 } : Cell Nat Nat).offerEach contested).2.size = 3 := by
  obtain ⟨⟨-, h2, -⟩, -, -, h4⟩ := views_agree (.nBest 1 1 : Policy Nat) contested
  rw [h4 1 1 (Or.inl rfl), h2]
  exact ⟨rfl, rfl⟩

end CategorialChart
