import CategorialChart.Proofs.Fingerprint.Parity

/-! # Which fingerprints can be taken

The table of a grammar has a contribution for a term exactly if the slot of the term belongs to a
category of the grammar and both of its positions lie in a sentence. The terms in question are those
of the unfolded tree, which are the pairs of different words that its nodes fill slots with
(`Derivation.mem_terms`).

* `Derivation.Covered categories n`: every such pair fills a slot of one of the categories, with
  positions below `n`. `Derivation.Uncovered`: the errors of the other pairs.
* `ContributionTable.contains_build`, `ContributionTable.term_error`: the slots that have a slab,
  and the terms that have no contribution.
* `ContributionTable.fingerprint_build`: the fingerprints that can be taken are those of the covered
  derivations. -/

namespace CategorialChart

/-! ### The terms of a tree -/

/-- A slot of one of the categories. -/
def Slot.Listed (categories : List Category) (s : Slot) : Prop :=
  s.category ∈ categories ∧ 1 ≤ s.index ∧ s.index ≤ s.category.arity

namespace Derivation

/-- **Every dependency between different words**, at any node of the tree, fills a slot of one of
the categories, and both words stand before position `n`. -/
def Covered (categories : List Category) (n : Nat) (d : Derivation) : Prop :=
  ∀ a, Occurs a d → ∀ dep ∈ a.dependencies.getD [], ∀ argument ∈ dep.arguments,
    argument ≠ dep.head → dep.slot.Listed categories ∧ dep.head < n ∧ argument < n

/-- The error names a pair of words that is not covered: a slot of no category, or words that do not
stand before position `n`. -/
def Uncovered (categories : List Category) (n : Nat) (d : Derivation) (e : TermError) : Prop :=
  ∃ x ∈ d.terms, (¬ x.slot.Listed categories ∧ e = .noSlab x.slot) ∨
    (x.slot.Listed categories ∧ ¬ (x.head < n ∧ x.argument < n) ∧
      e = .outside x.head x.argument n)

theorem Covered.mono {categories : List Category} {n m : Nat} {d : Derivation}
    (h : d.Covered categories n) (hnm : n ≤ m) : d.Covered categories m := by
  intro a ha dep hdep argument harg hne
  obtain ⟨hslot, hhead, hargument⟩ := h a ha dep hdep argument harg hne
  exact ⟨hslot, by omega, by omega⟩

theorem mem_ownTerms {a : Derivation} {x : Term} :
    x ∈ a.ownTerms ↔ ∃ dep ∈ a.dependencies.getD [], ∃ argument ∈ dep.arguments,
      argument ≠ dep.head ∧ x = ⟨dep.slot, dep.head, argument⟩ := by
  simp only [ownTerms, List.mem_flatMap, Dependency.terms, List.mem_map, List.mem_filter,
    decide_eq_true_eq]
  constructor
  · rintro ⟨dep, hdep, argument, ⟨harg, hne⟩, rfl⟩
    exact ⟨dep, hdep, argument, harg, hne, rfl⟩
  · rintro ⟨dep, hdep, argument, harg, hne, rfl⟩
    exact ⟨dep, hdep, argument, ⟨harg, hne⟩, rfl⟩

mutual

/-- **The terms of a tree** are those of its nodes. -/
theorem mem_terms {x : Term} : ∀ d : Derivation, x ∈ d.terms ↔ ∃ a, Occurs a d ∧ x ∈ a.ownTerms
  | ⟨id, category, children, dependencies⟩ => by
    rw [terms, List.mem_append, mem_termsOf]
    constructor
    · rintro (hx | ⟨c, hc, a, ha, hx⟩)
      · exact ⟨_, .root, hx⟩
      · exact ⟨a, .inChild hc ha, hx⟩
    · rintro ⟨a, ha, hx⟩
      rcases occurs_iff.mp ha with rfl | ⟨c, hc, ha⟩
      · exact Or.inl hx
      · exact Or.inr ⟨c, hc, a, ha, hx⟩

theorem mem_termsOf {x : Term} : ∀ ds : List Derivation,
    x ∈ termsOf ds ↔ ∃ d ∈ ds, ∃ a, Occurs a d ∧ x ∈ a.ownTerms
  | [] => by simp [termsOf]
  | d :: ds => by rw [termsOf, List.mem_append, mem_terms, mem_termsOf, List.exists_mem_cons_iff]

end

theorem covered_iff {categories : List Category} {n : Nat} {d : Derivation} :
    d.Covered categories n ↔
      ∀ x ∈ d.terms, x.slot.Listed categories ∧ x.head < n ∧ x.argument < n := by
  constructor
  · intro h x hx
    obtain ⟨a, ha, hx⟩ := (mem_terms d).mp hx
    obtain ⟨dep, hdep, argument, harg, hne, rfl⟩ := mem_ownTerms.mp hx
    exact h a ha dep hdep argument harg hne
  · intro h a ha dep hdep argument harg hne
    have hx := mem_ownTerms.mpr ⟨dep, hdep, argument, harg, hne, rfl⟩
    exact h _ ((mem_terms d).mpr ⟨a, ha, hx⟩)

end Derivation

/-! ### The slots of a table -/

namespace ContributionTable

variable {t : ContributionTable}

theorem contains_reserve (t : ContributionTable) (s s' : Slot) :
    (t.reserve s).contains s' = true ↔ t.contains s' = true ∨ s' = s := by
  unfold reserve
  by_cases h : t.contains s = true
  · rw [if_pos h]
    refine ⟨Or.inl, fun h' => ?_⟩
    rcases h' with h' | rfl
    · exact h'
    · exact h
  · rw [if_neg h]
    have hnew : (List.lookup s' [(s, t.drawn)]).isSome = true ↔ s' = s := by
      simp [List.lookup_isSome_iff]
    unfold contains offset?
    rw [List.lookup_append, Option.isSome_or, Bool.or_eq_true, hnew]

theorem maxLength_reserve (t : ContributionTable) (s : Slot) :
    (t.reserve s).maxLength = t.maxLength := by
  unfold reserve
  split <;> rfl

theorem foldl_reserve : ∀ (slots : List Slot) (t : ContributionTable),
    (slots.foldl reserve t).maxLength = t.maxLength ∧
      ∀ s, (slots.foldl reserve t).contains s = true ↔ t.contains s = true ∨ s ∈ slots
  | [], t => ⟨rfl, fun s => by simp⟩
  | slot :: slots, t => by
    obtain ⟨h1, h2⟩ := foldl_reserve slots (t.reserve slot)
    refine ⟨h1.trans (maxLength_reserve t slot), fun s => ?_⟩
    rw [List.foldl_cons, h2, contains_reserve, List.mem_cons, or_assoc]

variable {stream : Nat → UInt64} {maxLength : Nat} {categories : List Category}

theorem maxLength_build : (build stream maxLength categories).maxLength = maxLength :=
  (foldl_reserve _ _).1

/-- **The slots that have a slab** are those of the categories. -/
theorem contains_build {s : Slot} :
    (build stream maxLength categories).contains s = true ↔ s.Listed categories := by
  unfold build
  rw [(foldl_reserve _ _).2, List.mem_flatMap]
  have hempty : ({ maxLength, stream } : ContributionTable).contains s = false := rfl
  rw [hempty]
  constructor
  · rintro (h | ⟨c, hc, hs⟩)
    · cases h
    · obtain ⟨rfl, h1, h2⟩ := Category.mem_slots.mp hs
      exact ⟨hc, h1, h2⟩
  · rintro ⟨hc, h1, h2⟩
    exact Or.inr ⟨s.category, hc, Category.mem_slots.mpr ⟨rfl, h1, h2⟩⟩

/-! ### The terms without a contribution -/

/-- **Why a term has no contribution.** -/
theorem term_error {x : Term} {e : TermError} : t.term x = .error e ↔
    (t.contains x.slot = false ∧ e = .noSlab x.slot) ∨
      (t.contains x.slot = true ∧ ¬ (x.head < t.maxLength ∧ x.argument < t.maxLength) ∧
        e = .outside x.head x.argument t.maxLength) := by
  unfold term contains
  rcases t.offset? x.slot with _ | offset
  · simp [eq_comm]
  · by_cases h : x.head < t.maxLength ∧ x.argument < t.maxLength
    · simp [h]
    · simp [h, eq_comm]

theorem term_ok {x : Term} : (∃ w, t.term x = .ok w) ↔
    t.contains x.slot = true ∧ x.head < t.maxLength ∧ x.argument < t.maxLength := by
  unfold term contains
  rcases t.offset? x.slot with _ | offset
  · simp
  · by_cases h : x.head < t.maxLength ∧ x.argument < t.maxLength
    · simp [h]
    · simp [h]

theorem sum_error {e : TermError} : ∀ {xs : List Term}, t.sum xs = .error e →
    ∃ x ∈ xs, t.term x = .error e
  | [], h => by cases h
  | x :: xs, h => by
    rw [sum] at h
    rcases hx : t.term x with e' | w
    · rw [hx] at h
      cases h
      exact ⟨x, List.mem_cons_self, hx⟩
    rcases hs : t.sum xs with e' | f
    · rw [hx, hs] at h
      cases h
      obtain ⟨y, hy, he⟩ := sum_error hs
      exact ⟨y, List.mem_cons_of_mem x hy, he⟩
    · rw [hx, hs] at h
      cases h

theorem sum_ok {xs : List Term} : (∃ f, t.sum xs = .ok f) ↔ ∀ x ∈ xs, ∃ w, t.term x = .ok w := by
  constructor
  · rintro ⟨f, hf⟩ x hx
    exact ⟨_, (sum_eq hf).1 x hx⟩
  · intro h
    rcases hs : t.sum xs with e | f
    · obtain ⟨x, hx, he⟩ := sum_error hs
      obtain ⟨w, hw⟩ := h x hx
      cases he.symm.trans hw
    · exact ⟨f, rfl⟩

/-- **The fingerprints that can be taken** with the table of a grammar are those of the covered
derivations. Any other fails with the error of a term of the tree. -/
theorem fingerprint_build (d : Derivation) :
    ((∃ f, (build stream maxLength categories).fingerprint d = .ok f) ↔
        d.Covered categories maxLength) ∧
      ∀ e, (build stream maxLength categories).fingerprint d = .error e →
        d.Uncovered categories maxLength e := by
  rw [fingerprint_eq_sum]
  refine ⟨?_, fun e he => ?_⟩
  · rw [sum_ok, Derivation.covered_iff]
    refine forall₂_congr fun x _ => ?_
    rw [term_ok, contains_build, maxLength_build]
  · obtain ⟨x, hx, he⟩ := sum_error he
    rw [term_error, contains_build, maxLength_build, Bool.eq_false_iff, ne_eq,
      contains_build] at he
    exact ⟨x, hx, he⟩

end ContributionTable

end CategorialChart
