import CategorialChart.Proofs.Cell.Entries

/-! # The counters of a cell

A cell counts each offer that it answers, and its counters say how many items it holds. They are
`Stats.Balanced` for a policy and a size: what was offered is what was retained and what was
refused, what was retained and not replaced is held, and only the counters move that the policy can
move. The counters of several cells together are balanced for the sum of their sizes
(`Balanced.add`).

`accounted_offers`: whatever is offered to a cell, and whichever hashers take the fingerprints, its
counters stay balanced and count the offers that were answered. -/

namespace CategorialChart

variable {κ σ : Type}

namespace Stats

/-- The offers that were refused for a reason. -/
def refusals (s : Stats) : Refusal → Nat
  | .occupied => s.occupied
  | .notBetter => s.notBetter
  | .count => s.count
  | .beam => s.beam
  | .duplicate => s.duplicate

/-- **The counters are balanced** for a policy under which `size` items are held. -/
structure Balanced (policy : Policy σ) (size : Nat) (s : Stats) : Prop where
  offered : s.offered = s.admitted + s.rejected
  held : size + s.replaced = s.admitted
  replaced : policy ≠ .oneBestCky → s.replaced = 0
  refused : ∀ why, policy.refuses why = false → s.refusals why = 0

theorem balanced_empty (policy : Policy σ) : ({} : Stats).Balanced policy 0 where
  offered := rfl
  held := rfl
  replaced _ := rfl
  refused why _ := by cases why <;> rfl

theorem offered_add (s t : Stats) : (s + t).offered = s.offered + t.offered := rfl

theorem offered_refused (s : Stats) (why : Refusal) :
    (s.refused why).offered = s.offered + 1 := by
  cases why <;> rfl

theorem refusals_refused (s : Stats) (why why' : Refusal) :
    (s.refused why).refusals why' = s.refusals why' + if why' = why then 1 else 0 := by
  cases why <;> cases why' <;> rfl

theorem rejected_eq (s : Stats) : s.rejected =
    s.refusals .occupied + s.refusals .notBetter + s.refusals .count + s.refusals .beam +
      s.refusals .duplicate := rfl

theorem rejected_refused (s : Stats) (why : Refusal) :
    (s.refused why).rejected = s.rejected + 1 := by
  simp only [rejected_eq, refusals_refused]
  cases why <;> simp <;> omega

variable {policy : Policy σ} {size : Nat} {s t : Stats}

namespace Balanced

theorem refuse (h : s.Balanced policy size) {why : Refusal} (hwhy : policy.refuses why = true) :
    (s.refused why).Balanced policy size where
  offered := by
    have hadmitted : (s.refused why).admitted = s.admitted := by cases why <;> rfl
    have := h.offered
    rw [offered_refused, rejected_refused, hadmitted]
    omega
  held := by
    have hkept : (s.refused why).admitted = s.admitted ∧ (s.refused why).replaced = s.replaced := by
      cases why <;> exact ⟨rfl, rfl⟩
    rw [hkept.1, hkept.2, h.held]
  replaced hp := by
    have hkept : (s.refused why).replaced = s.replaced := by cases why <;> rfl
    rw [hkept, h.replaced hp]
  refused why' hp := by
    have hne : why' ≠ why := by
      rintro rfl
      rw [hwhy] at hp
      cases hp
    rw [refusals_refused, if_neg hne, h.refused why' hp]

theorem keep (h : s.Balanced policy size) : (s.retained false).Balanced policy (size + 1) where
  offered := by
    have := h.offered
    show s.offered + 1 = s.admitted + 1 + s.rejected
    omega
  held := by
    have := h.held
    show size + 1 + s.replaced = s.admitted + 1
    omega
  replaced := h.replaced
  refused := h.refused

theorem replace (h : s.Balanced policy size) (hp : policy = .oneBestCky) :
    (s.retained true).Balanced policy size where
  offered := by
    have := h.offered
    show s.offered + 1 = s.admitted + 1 + s.rejected
    omega
  held := by
    have := h.held
    show size + (s.replaced + 1) = s.admitted + 1
    omega
  replaced hne := absurd hp hne
  refused := h.refused

/-- **Balanced counters add up.** -/
theorem add {size' : Nat} (h : s.Balanced policy size) (h' : t.Balanced policy size') :
    (s + t).Balanced policy (size + size') where
  offered := by
    have h1 := h.offered
    have h2 := h'.offered
    have hrejected : (s + t).rejected = s.rejected + t.rejected := by
      show _ + _ + (_ + _) + (_ + _) + (_ + _) + (_ + _) = _
      unfold rejected
      omega
    have hadmitted : (s + t).admitted = s.admitted + t.admitted := rfl
    rw [offered_add, hadmitted, hrejected]
    omega
  held := by
    have h1 := h.held
    have h2 := h'.held
    show size + size' + (s.replaced + t.replaced) = s.admitted + t.admitted
    omega
  replaced hp := by
    show s.replaced + t.replaced = 0
    rw [h.replaced hp, h'.replaced hp]
  refused why hp := by
    have hwhy : (s + t).refusals why = s.refusals why + t.refusals why := by cases why <;> rfl
    rw [hwhy, h.refused why hp, h'.refused why hp]

end Balanced

end Stats

/-- The number of results that are no failures. -/
def returned {ε α : Type} (results : List (Except ε α)) : Nat := results.countP Except.isOk

theorem returned_cons {ε α : Type} (r : Except ε α) (rs : List (Except ε α)) :
    returned (r :: rs) = returned [r] + returned rs := by
  unfold returned
  rw [List.countP_cons, List.countP_singleton, Nat.add_comm]

namespace Cell

variable [DecidableEq κ]

/-- **The account of a cell** with a policy that has answered a number of offers. -/
structure Accounted (policy : Policy σ) (c : Cell κ σ) (answered : Nat) : Prop where
  policy_eq : c.policy = policy
  wellKept : c.WellKept
  balanced : c.stats.Balanced policy c.size
  offered : c.stats.offered = answered

theorem accounted_empty (policy : Policy σ) :
    ({ policy := policy } : Cell κ σ).Accounted policy 0 where
  policy_eq := rfl
  wellKept := wellKept_empty policy
  balanced := Stats.balanced_empty policy
  offered := rfl

variable [Ord κ] [LT σ] [DecidableLT σ] [Mul σ] {policy : Policy σ} {c : Cell κ σ}
  {answered : Nat}

/-- **An answer keeps the account**: it counts as one offer, and a failure as none. -/
theorem Accounted.answer (hc : c.Accounted policy answered) (f : Except TermError Fingerprint)
    (key : κ) (item : Item κ σ) :
    (c.answer f key item).2.Accounted policy
      (answered + returned [(c.answer f key item).1]) := by
  refine ⟨(policy_answer c f key item).trans hc.policy_eq, hc.wellKept.answer f key item, ?_, ?_⟩
  · have hb := hc.balanced
    have hpolicy := hc.policy_eq
    rcases hc.wellKept.answer_entries f key item with
      ⟨why, hwhy, -, ha⟩ | ⟨e, ha⟩ | ⟨g, l, r, -, ha, h1, h2⟩ |
        ⟨old, l, r, hp, -, -, ha, h1, h2⟩ <;> rw [ha]
    · rw [hpolicy] at hwhy
      exact hb.refuse hwhy
    · have hsize : (c.withGroup key).size = c.size := by
        rw [size_eq_length, size_eq_length, entries_withGroup]
      rw [hsize]
      exact hb
    · have hsize : (c.keep key item g).size = c.size + 1 := by
        rw [size_eq_length, size_eq_length, h1, h2, List.length_append, List.length_append,
          List.length_cons]
        omega
      rw [hsize]
      exact hb.keep
    · have hsize : (c.replace key item).size = c.size := by
        rw [size_eq_length, size_eq_length, h1, h2, List.length_append, List.length_append,
          List.length_cons, List.length_cons]
      rw [hsize]
      exact hb.replace (hpolicy.symm.trans hp)
  · rw [← hc.offered]
    rcases c.answer_cases f key item with ⟨why, ha⟩ | ha | ⟨e, ha⟩ | ⟨g, ha⟩ <;> rw [ha]
    · exact Stats.offered_refused c.stats why
    · rfl
    · rfl
    · rfl

/-- Offers in a row, each with a hasher of its own: the results, and the cell after the last. -/
def offerEach (c : Cell κ σ) (offers : List (Hasher × κ × Item κ σ)) :
    List (Except TermError Bool) × Cell κ σ :=
  transcript (fun c o => ((c.offer o.1 o.2.1 o.2.2).1, (c.offer o.1 o.2.1 o.2.2).2.1)) c offers

theorem offerEach_cons (c : Cell κ σ) (o : Hasher × κ × Item κ σ)
    (offers : List (Hasher × κ × Item κ σ)) :
    (c.offerEach (o :: offers)).2 = ((c.offerEach [o]).2.offerEach offers).2 := rfl

theorem offerEach_concat (c : Cell κ σ) (offers : List (Hasher × κ × Item κ σ))
    (o : Hasher × κ × Item κ σ) :
    c.offerEach (offers ++ [o]) =
      ((c.offerEach offers).1 ++
          [((c.offerEach offers).2.answer (o.1.fingerprint o.2.2.derivation).1 o.2.1 o.2.2).1],
        ((c.offerEach offers).2.answer (o.1.fingerprint o.2.2.derivation).1 o.2.1 o.2.2).2) := by
  unfold offerEach
  rw [transcript_concat]
  simp only [offer_eq]

theorem policy_offerEach (c : Cell κ σ) (offers : List (Hasher × κ × Item κ σ)) :
    (c.offerEach offers).2.policy = c.policy := by
  refine transcript_keeps (P := fun c' : Cell κ σ => c'.policy = c.policy) (fun c' o hp => ?_)
    offers rfl
  rw [offer_eq]
  exact (policy_answer c' _ o.2.1 o.2.2).trans hp

theorem WellKept.offerEach (hc : c.WellKept) (offers : List (Hasher × κ × Item κ σ)) :
    (c.offerEach offers).2.WellKept := by
  refine transcript_keeps (P := WellKept) (fun c' o hc' => ?_) offers hc
  rw [offer_eq]
  exact hc'.answer _ o.2.1 o.2.2

/-- **A single offer** among others: what it is answered, and the cell after it. -/
theorem offerEach_at (c : Cell κ σ) (offers : List (Hasher × κ × Item κ σ)) {i : Nat}
    (hi : i < offers.length) :
    let a := (c.offerEach (offers.take i)).2.answer
      (offers[i].1.fingerprint offers[i].2.2.derivation).1 offers[i].2.1 offers[i].2.2
    (c.offerEach offers).1[i]? = some a.1 ∧ (c.offerEach (offers.take (i + 1))).2 = a.2 := by
  have h := transcript_at (fun (c : Cell κ σ) (o : Hasher × κ × Item κ σ) =>
    ((c.offer o.1 o.2.1 o.2.2).1, (c.offer o.1 o.2.1 o.2.2).2.1)) offers hi c
  rw [offer_eq] at h
  exact h

/-- **Offers keep the account**, whichever hashers take the fingerprints. -/
theorem accounted_offers : ∀ (offers : List (Hasher × κ × Item κ σ)) {c : Cell κ σ}
    {answered : Nat}, c.Accounted policy answered →
      (c.offerEach offers).2.Accounted policy (answered + returned (c.offerEach offers).1)
  | [], _, _, hc => hc
  | (h, key, item) :: offers, c, answered, hc => by
    have hc' := hc.answer (h.fingerprint item.derivation).1 key item
    have hoffer := c.offer_eq h key item
    have hrest := accounted_offers offers hc'
    unfold offerEach at hrest ⊢
    rw [transcript, returned_cons, ← Nat.add_assoc]
    simp only [hoffer]
    exact hrest

end Cell

end CategorialChart
