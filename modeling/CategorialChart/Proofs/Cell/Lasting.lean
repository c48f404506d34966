import CategorialChart.Proofs.Cell.Counters
import Mathlib.Data.List.Induction

/-! # What a cell does not lose

A cell that holds an item holds one whatever else is offered to it. The item itself stays as well,
unless the policy replaces items and a later one under its key has a higher inside score
(`Replaced`).

* `WellKept.mem_answer`: what one answer leaves of an item that is held.
* `WellKept.held_or_replaced`: what offers in a row leave of it.
* `first_offer_lasts`: the first item that is offered to a cell, after any offers. -/

namespace CategorialChart.Cell

variable {κ σ : Type} [DecidableEq κ] {c : Cell κ σ} {k key : κ} {x item : Item κ σ}

omit [DecidableEq κ] in
theorem isEmpty_eq_false : c.isEmpty = false ↔ c.entries ≠ [] := by
  rw [isEmpty, decide_eq_false_iff_not, size_eq_length, List.length_eq_zero_iff]

variable [Ord κ]

/-- An item that is kept under its own key is found there, and those that were held are still
held. -/
theorem mem_entriesFor_keep (hc : c.policy.has .keyed = true → c.Keyed) (key : κ)
    (item : Item κ σ) (f : Option Fingerprint) :
    (∀ k, ∀ x ∈ c.entriesFor k, x ∈ (c.keep key item f).entriesFor k) ∧
      (key = item.key → item ∈ (c.keep key item f).entriesFor key) := by
  refine ⟨fun k x hx => ?_, fun hkey => ?_⟩
  · rw [entriesFor_keep hc]
    exact List.mem_append_left _ hx
  · have hown : c.policy.groupKey (key, item) = key := by
      unfold Policy.groupKey
      split
      · rfl
      · exact hkey.symm
    rw [entriesFor_keep hc, if_pos hown]
    exact List.mem_append_right _ (List.mem_singleton_self item)

variable [LT σ] [DecidableLT σ] [Mul σ]

/-! ### One answer -/

/-- A cell that holds an item holds one after an answer. -/
theorem WellKept.entries_answer_ne_nil (hc : c.WellKept) (h : c.entries ≠ [])
    (f : Except TermError Fingerprint) (key : κ) (item : Item κ σ) :
    (c.answer f key item).2.entries ≠ [] := by
  rcases hc.answer_entries f key item with
    ⟨why, -, -, ha⟩ | ⟨e, ha⟩ | ⟨g, l, r, -, ha, -, hr⟩ | ⟨-, l, r, -, -, -, ha, -, hr⟩ <;> rw [ha]
  · exact h
  · dsimp only
    rw [entries_withGroup]
    exact h
  · simp [hr]
  · simp [hr]

/-- **An item that is held** is held after an answer, or the item that is offered has taken its
place. -/
theorem WellKept.mem_answer (hc : c.WellKept) (hx : x ∈ c.entriesFor k)
    (f : Except TermError Fingerprint) (key : κ) (item : Item κ σ) :
    x ∈ (c.answer f key item).2.entriesFor k ∨
      c.policy = .oneBestCky ∧ key = k ∧ x.insideScore < item.insideScore ∧
        c.entriesFor k = [x] ∧ (c.answer f key item).2.entriesFor k = [item] := by
  rcases hc.answer_entries f key item with
    ⟨why, -, -, ha⟩ | ⟨e, ha⟩ | ⟨g, -, -, -, ha, -⟩ | ⟨old, -, -, hp, hlt, hold, ha, -⟩ <;> rw [ha]
  · exact Or.inl hx
  · rw [entriesFor_withGroup]
    exact Or.inl hx
  · exact Or.inl ((mem_entriesFor_keep hc.keyed key item g).1 k x hx)
  · have hkeyed := hc.keyed (by rw [hp]; rfl)
    have hkey : key ∈ c.groups.map Group.key := mem_keys_of_entriesFor (by rw [hold]; simp)
    rw [entriesFor_eq (hkeyed.replace key item), group_replace hkeyed hkey]
    by_cases hk : k = key
    · subst hk
      rw [hold, List.mem_singleton] at hx
      subst hx
      exact Or.inr ⟨hp, rfl, hlt, hold, by rw [if_pos rfl]⟩
    · rw [if_neg hk, ← entriesFor_eq hkeyed]
      exact Or.inl hx

/-! ### Offers in a row -/

/-- One of several offers puts its item in the place of `x`, which is held under `k` until then. The
item is offered under `k` and has a higher inside score. -/
def Replaced (c : Cell κ σ) (k : κ) (x : Item κ σ) (offers : List (Hasher × κ × Item κ σ)) : Prop :=
  ∃ before o after, offers = before ++ o :: after ∧ o.2.1 = k ∧ x.insideScore < o.2.2.insideScore ∧
    (c.offerEach before).2.entriesFor k = [x] ∧
    (c.offerEach (before ++ [o])).2.entriesFor k = [o.2.2]

/-- A cell that holds an item holds one after any offers. -/
theorem WellKept.entries_offerEach_ne_nil (hc : c.WellKept) (h : c.entries ≠ [])
    (offers : List (Hasher × κ × Item κ σ)) : (c.offerEach offers).2.entries ≠ [] := by
  induction offers using List.reverseRecOn with
  | nil => exact h
  | append_singleton offers o ih =>
    rw [offerEach_concat]
    exact (hc.offerEach offers).entries_answer_ne_nil ih _ o.2.1 o.2.2

/-- **An item that is held** is held after any offers, or has been replaced by one of them. -/
theorem WellKept.held_or_replaced (hc : c.WellKept) (hx : x ∈ c.entriesFor k)
    (offers : List (Hasher × κ × Item κ σ)) :
    x ∈ (c.offerEach offers).2.entriesFor k ∨
      c.policy = .oneBestCky ∧ c.Replaced k x offers := by
  induction offers using List.reverseRecOn with
  | nil => exact Or.inl hx
  | append_singleton offers o ih =>
    rcases ih with hheld | ⟨hp, before, o', after, he, hrest⟩
    · have hstep := (hc.offerEach offers).mem_answer hheld (o.1.fingerprint o.2.2.derivation).1
        o.2.1 o.2.2
      rw [policy_offerEach] at hstep
      rcases hstep with hheld' | ⟨hp, hk, hlt, hbefore, hafter⟩
      · exact Or.inl (by rw [offerEach_concat]; exact hheld')
      · exact Or.inr ⟨hp, offers, o, [], rfl, hk, hlt, hbefore, by rw [offerEach_concat, hafter]⟩
    · refine Or.inr ⟨hp, before, o', after ++ [o], ?_, hrest⟩
      rw [he, List.append_assoc, List.cons_append]

/-- An offer before the others plays no part in a replacement among them. -/
theorem Replaced.cons {o : Hasher × κ × Item κ σ} {offers : List (Hasher × κ × Item κ σ)}
    (h : (c.offerEach [o]).2.Replaced k x offers) : c.Replaced k x (o :: offers) := by
  obtain ⟨before, o', after, he, hk, hlt, h1, h2⟩ := h
  refine ⟨o :: before, o', after, by rw [he, List.cons_append], hk, hlt, ?_, ?_⟩
  · rw [offerEach_cons]
    exact h1
  · rw [List.cons_append, offerEach_cons]
    exact h2

/-- **The first item that is offered to a cell**, under its own key and with a fingerprint where one
is asked for, is held after any offers, or has been replaced. The cell holds an item in either
case. -/
theorem first_offer_lasts (policy : Policy σ) {h : Hasher} (x : Item κ σ)
    (hf : policy.has .structuralDedup = true → ∃ f, (h.fingerprint x.derivation).1 = .ok f)
    (offers : List (Hasher × κ × Item κ σ)) :
    let c : Cell κ σ := { policy := policy }
    let all := (h, x.key, x) :: offers
    (c.offerEach all).2.isEmpty = false ∧
      (x ∈ (c.offerEach all).2.entriesFor x.key ∨
        policy = .oneBestCky ∧ c.Replaced x.key x all) := by
  intro c all
  have hc : c.WellKept := wellKept_empty policy
  have hnew : x.key ∉ c.groups.map Group.key := List.not_mem_nil
  obtain ⟨g, ha⟩ := answer_of_new hnew hf x
  have hfirst : (c.offerEach [(h, x.key, x)]).2 = c.keep x.key x g := by
    rw [← List.nil_append [_], offerEach_concat]
    exact congrArg Prod.snd ha
  have hc₁ := hc.offerEach [(h, x.key, x)]
  have hx : x ∈ (c.offerEach [(h, x.key, x)]).2.entriesFor x.key := by
    rw [hfirst]
    exact (mem_entriesFor_keep hc.keyed x.key x g).2 rfl
  have hrest : (c.offerEach all).2 = ((c.offerEach [(h, x.key, x)]).2.offerEach offers).2 :=
    offerEach_cons c (h, x.key, x) offers
  rw [isEmpty_eq_false, hrest]
  refine ⟨hc₁.entries_offerEach_ne_nil (List.ne_nil_of_mem (mem_entries_of_mem hx)) offers, ?_⟩
  rcases hc₁.held_or_replaced hx offers with hheld | ⟨hp, hr⟩
  · exact Or.inl hheld
  · rw [policy_offerEach] at hp
    exact Or.inr ⟨hp, hr.cons⟩

end CategorialChart.Cell
