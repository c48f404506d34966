import CategorialChart.Proofs.Cell.Groups

/-! # Offers with a known fingerprint

An offer uses the hasher for one thing only, the fingerprint of the item. `Cell.answer` is what
becomes of an offer once this fingerprint is known, whoever took it, and `Cell.asks` says whether
the cell asks for it at all. So an offer is an answer to the hasher's fingerprint (`offer_eq`), and
two offers differ at most by the fingerprints that their hashers give.

The rest of the module says what an answer keeps: the policy, and at most one group per key
(`Keyed.answer`). -/

namespace CategorialChart.Cell

variable {κ σ : Type} [DecidableEq κ] [LT σ] [DecidableLT σ] [Mul σ]

/-- Whether an offer takes a fingerprint. -/
def asks (c : Cell κ σ) (key : κ) (item : Item κ σ) : Bool :=
  c.policy.has .structuralDedup && c.policy.judge (c.entriesFor key) item == .keep

variable [Ord κ]

/-- **What becomes of an offer** whose derivation has a known fingerprint. -/
def answer (c : Cell κ σ) (fingerprint : Except TermError Fingerprint) (key : κ)
    (item : Item κ σ) : Except TermError Bool × Cell κ σ :=
  match c.policy.judge (c.entriesFor key) item with
  | .refuse why => (.ok false, c.refuse why)
  | .replace => (.ok true, c.replace key item)
  | .keep =>
    if c.policy.has .structuralDedup then
      match fingerprint with
      | .error e => (.error e, c.withGroup key)
      | .ok f =>
        if f ∈ c.seenFor key then (.ok false, c.refuse .duplicate)
        else (.ok true, c.keep key item (some f))
    else (.ok true, c.keep key item none)

/-- An offer is an answer to the fingerprint that the hasher takes, if it is asked. -/
theorem offer_eq (c : Cell κ σ) (hasher : Hasher) (key : κ) (item : Item κ σ) :
    c.offer hasher key item =
      ((c.answer (hasher.fingerprint item.derivation).1 key item).1,
        (c.answer (hasher.fingerprint item.derivation).1 key item).2,
        if c.asks key item then (hasher.fingerprint item.derivation).2 else hasher) := by
  unfold offer answer asks
  rcases hj : c.policy.judge (c.entriesFor key) item with _ | _ | why
  · by_cases hp : c.policy.has .structuralDedup = true
    · rcases hf : hasher.fingerprint item.derivation with ⟨e | f, hasher'⟩
      · simp [hp, withGroup]
      · by_cases hs : f ∈ c.seenFor key <;> simp [hp, hs]
    · simp [hp]
  · simp
  · simp

/-! ### What becomes of an offer -/

section Verdicts
variable {c : Cell κ σ}

theorem answer_of_refuse {key : κ} {item : Item κ σ} {why : Refusal}
    (h : c.policy.judge (c.entriesFor key) item = .refuse why) (f : Except TermError Fingerprint) :
    c.answer f key item = (.ok false, c.refuse why) := by
  unfold answer
  rw [h]

/-- An item that is kept, where no fingerprint is taken. -/
theorem answer_of_keep {key : κ} {item : Item κ σ} (hp : c.policy.has .structuralDedup = false)
    (h : c.policy.judge (c.entriesFor key) item = .keep) (f : Except TermError Fingerprint) :
    c.answer f key item = (.ok true, c.keep key item none) := by
  unfold answer
  rw [h, hp]
  rfl

/-- What becomes of an offer that takes a fingerprint. -/
theorem answer_of_asks {key : κ} {item : Item κ σ} (h : c.asks key item = true) :
    (∀ e, c.answer (.error e) key item = (.error e, c.withGroup key)) ∧
      ∀ f, c.answer (.ok f) key item =
        if f ∈ c.seenFor key then (.ok false, c.refuse .duplicate)
        else (.ok true, c.keep key item (some f)) := by
  unfold asks at h
  rw [Bool.and_eq_true, beq_iff_eq] at h
  obtain ⟨hp, hj⟩ := h
  unfold answer
  rw [hj, hp]
  exact ⟨fun e => rfl, fun f => rfl⟩

/-- An answer fails for want of a fingerprint only. -/
theorem answer_ok {f : Except TermError Fingerprint}
    (h : c.policy.has .structuralDedup = true → ∃ g, f = .ok g) (key : κ) (item : Item κ σ) :
    ∃ b, (c.answer f key item).1 = .ok b := by
  unfold answer
  rcases c.policy.judge (c.entriesFor key) item with _ | _ | why <;> dsimp only
  · by_cases hp : c.policy.has .structuralDedup = true
    · obtain ⟨g, rfl⟩ := h hp
      by_cases hg : g ∈ c.seenFor key <;> simp [hp, hg]
    · exact ⟨true, by rw [if_neg hp]⟩
  · exact ⟨true, rfl⟩
  · exact ⟨false, rfl⟩

/-- No offer fails where no fingerprint is taken. -/
theorem answer_isOk (hp : c.policy.has .structuralDedup = false) (f : Except TermError Fingerprint)
    (key : κ) (item : Item κ σ) : ∃ b, (c.answer f key item).1 = .ok b :=
  answer_ok (fun h => Bool.noConfusion (hp.symm.trans h)) key item

end Verdicts

/-! ### What an answer keeps -/

/-- The cells that an answer can lead to. -/
theorem answer_cases (c : Cell κ σ) (f : Except TermError Fingerprint) (key : κ)
    (item : Item κ σ) :
    (∃ why, c.answer f key item = (.ok false, c.refuse why)) ∨
      c.answer f key item = (.ok true, c.replace key item) ∨
      (∃ e, c.answer f key item = (.error e, c.withGroup key)) ∨
      ∃ g, c.answer f key item = (.ok true, c.keep key item g) := by
  unfold answer
  rcases c.policy.judge (c.entriesFor key) item with _ | _ | why
  · by_cases hp : c.policy.has .structuralDedup = true
    · rcases f with e | f
      · exact Or.inr (Or.inr (Or.inl ⟨e, by simp [hp]⟩))
      · by_cases hs : f ∈ c.seenFor key
        · exact Or.inl ⟨.duplicate, by simp [hp, hs]⟩
        · exact Or.inr (Or.inr (Or.inr ⟨some f, by simp [hp, hs]⟩))
    · exact Or.inr (Or.inr (Or.inr ⟨none, by simp [hp]⟩))
  · exact Or.inr (Or.inl rfl)
  · exact Or.inl ⟨why, rfl⟩

@[simp] theorem policy_answer (c : Cell κ σ) (f : Except TermError Fingerprint) (key : κ)
    (item : Item κ σ) : (c.answer f key item).2.policy = c.policy := by
  rcases c.answer_cases f key item with ⟨why, h⟩ | h | ⟨e, h⟩ | ⟨g, h⟩ <;> rw [h] <;> rfl

theorem Keyed.answer {c : Cell κ σ} (hc : c.Keyed) (hp : c.policy.has .keyed = true)
    (f : Except TermError Fingerprint) (key : κ) (item : Item κ σ) :
    (c.answer f key item).2.Keyed := by
  rcases c.answer_cases f key item with ⟨why, h⟩ | h | ⟨e, h⟩ | ⟨g, h⟩
  · rw [h]; exact hc.refuse why
  · rw [h]; exact hc.replace key item
  · rw [h]; exact hc.withGroup key
  · rw [h]; exact hc.keep hp key item g

end CategorialChart.Cell
