import CategorialChart.Proofs.Cell.Lasting
import CategorialChart.Proofs.Chart.Seeding
import CategorialChart.Proofs.Chart.Spans
import CategorialChart.Proofs.Session.Failures

/-! # Offers to a chart, each with a hasher of its own

`Chart.offerEach` makes offers to the cells of spans in a row. What a cell holds afterwards is what
a cell of its own holds after the offers of its span (`cell_offerEach`), whichever hashers take the
fingerprints.

A seeding is such a row of offers (`addMade_eq_offerEach`): of the items that are `made` from the
candidates, if all have fingerprints where the policy takes them. -/

namespace CategorialChart

variable {κ σ : Type}

theorem Span.within_word {position n : Nat} : (Span.word position).Within n ↔ position < n := by
  simp only [Span.Within, Span.word]
  omega

theorem Span.word_inj {i j : Nat} : Span.word i = Span.word j ↔ i = j := by
  simp only [Span.word, Span.mk.injEq]
  omega

namespace Chart

theorem exists_cell {c : Chart κ σ} {span : Span} (h : span.Within c.length) :
    ∃ cell, c.cell span = .ok cell :=
  ⟨_, dif_pos h⟩

/-! ### Items that are made -/

section Made
variable {S : Type} (make : Nat → ScoredCategory σ → StateM S (Item κ σ))

/-- The items that are made from candidates, in order, each with the span of its word. -/
def made : List (Nat × ScoredCategory σ) → S → List (Span × Item κ σ)
  | [], _ => []
  | (word, candidate) :: rest, s =>
    (.word word, (make word candidate s).1) :: made rest (make word candidate s).2

theorem mem_made {p : Span × Item κ σ} : ∀ {xs : List (Nat × ScoredCategory σ)} {s : S},
    p ∈ made make xs s → ∃ x ∈ xs, p.1 = .word x.1
  | [], _, h => absurd h List.not_mem_nil
  | (word, candidate) :: xs, s, h => by
    rcases List.mem_cons.mp h with rfl | h
    · exact ⟨_, List.mem_cons_self, rfl⟩
    · obtain ⟨x, hx, hp⟩ := mem_made h
      exact ⟨x, List.mem_cons_of_mem _ hx, hp⟩

/-- The items of the first candidates do not depend on the others. -/
theorem made_append_left : ∀ (xs ys : List (Nat × ScoredCategory σ)) (s : S),
    made make xs s <+: made make (xs ++ ys) s
  | [], _, _ => List.nil_prefix
  | (word, candidate) :: xs, ys, s =>
    (List.prefix_cons_inj _).mpr (made_append_left xs ys (make word candidate s).2)

/-- A word has as many items as candidates. -/
theorem length_addressed_made (word : Nat) : ∀ (xs : List (Nat × ScoredCategory σ)) (s : S),
    (addressed (.word word) (made make xs s)).length = (xs.filter fun x => x.1 = word).length
  | [], _ => rfl
  | (word', candidate) :: xs, s => by
    have ih := length_addressed_made word xs (make word' candidate s).2
    rw [made, addressed_cons]
    by_cases hw : word' = word
    · subst hw
      simp [ih]
    · simp [hw, Span.word_inj, ih]

end Made

theorem candidates_append : ∀ (rows rows' : List (List (ScoredCategory σ))) (word : Nat),
    candidates word (rows ++ rows') =
      candidates word rows ++ candidates (word + rows.length) rows'
  | [], rows', word => rfl
  | row :: rows, rows', word => by
    rw [List.cons_append, candidates, candidates_append rows rows', candidates, List.append_assoc,
      List.length_cons, Nat.add_assoc, Nat.add_comm 1]

theorem mem_candidates {x : Nat × ScoredCategory σ} : ∀ {rows : List (List (ScoredCategory σ))}
    {word : Nat}, x ∈ candidates word rows → word ≤ x.1 ∧ x.1 < word + rows.length
  | [], _, h => absurd h List.not_mem_nil
  | row :: rows, word, h => by
    rw [List.length_cons]
    rcases List.mem_append.mp h with h | h
    · obtain ⟨c, -, rfl⟩ := List.mem_map.mp h
      dsimp only
      omega
    · have := mem_candidates h
      omega

/-- The candidates of a word are those of its row. -/
theorem filter_candidates : ∀ (rows : List (List (ScoredCategory σ))) (first position : Nat),
    (candidates first rows).filter (fun x => x.1 = first + position) =
      (rows.getD position []).map (first + position, ·)
  | [], _, _ => rfl
  | row :: rows, first, 0 => by
    have hrest : (candidates (first + 1) rows).filter (fun x => x.1 = first + 0) = [] := by
      rw [List.filter_eq_nil_iff]
      intro x hx
      have := (mem_candidates hx).1
      rw [decide_eq_true_eq]
      omega
    rw [candidates, List.filter_append, hrest]
    simp [List.filter_map, Function.comp_def]
  | row :: rows, first, position + 1 => by
    have hrow : (row.map (first, ·)).filter (fun x => x.1 = first + (position + 1)) = [] := by
      simp [List.filter_map]
    have ih := filter_candidates rows (first + 1) position
    rw [Nat.add_assoc, Nat.add_comm 1 position] at ih
    rw [candidates, List.filter_append, hrow, ih]
    rfl

/-! ### Offers -/

variable [DecidableEq κ] [Ord κ] [LT σ] [DecidableLT σ] [Mul σ]

/-- The chart after offers in a row, each to the cell of a span, with a hasher of its own. -/
def offerEach (c : Chart κ σ) (offers : List (Span × Hasher × κ × Item κ σ)) : Chart κ σ :=
  offers.foldl (fun c o => (c.offer o.2.1 o.1 o.2.2.1 o.2.2.2).2.1) c

/-- What one offer does to the cell of its span. -/
theorem cell_offer_here {c : Chart κ σ} {span : Span} {cell : Cell κ σ}
    (hcell : c.cell span = .ok cell) (h : Hasher) (key : κ) (item : Item κ σ) :
    (c.offer h span key item).2.1.cell span = .ok (cell.offer h key item).2.1 := by
  rw [offer_eq, Cell.offer_eq]
  exact (answer_of_ok hcell _ key item).2

theorem cell_offer_elsewhere {span span' : Span} (hne : span ≠ span') (c : Chart κ σ) (h : Hasher)
    (key : κ) (item : Item κ σ) : (c.offer h span key item).2.1.cell span' = c.cell span' := by
  rw [offer_eq]
  exact cell_answer_ne hne _ key item

/-- **What a cell holds** after offers to the chart is due to those of its span. -/
theorem cell_offerEach {span : Span} : ∀ (offers : List (Span × Hasher × κ × Item κ σ))
    {c : Chart κ σ} {cell : Cell κ σ}, c.cell span = .ok cell →
      (c.offerEach offers).cell span = .ok (cell.offerEach (addressed span offers)).2
  | [], _, _, hcell => hcell
  | (span', h, key, item) :: offers, c, cell, hcell => by
    rw [addressed_cons]
    by_cases hs : span' = span
    · subst hs
      rw [if_pos rfl]
      exact cell_offerEach offers (cell_offer_here hcell h key item)
    · rw [if_neg hs]
      exact cell_offerEach offers ((cell_offer_elsewhere hs c h key item).trans hcell)

theorem offerEach_append (c : Chart κ σ) (offers later : List (Span × Hasher × κ × Item κ σ)) :
    c.offerEach (offers ++ later) = (c.offerEach offers).offerEach later :=
  List.foldl_append

/-! ### Seeding -/

theorem Follows.offer {c : Chart κ σ} {policy : Policy σ} (hc : c.Follows policy) (h : Hasher)
    (span : Span) (key : κ) (item : Item κ σ) :
    (c.offer h span key item).2.1.Follows policy := by
  rw [offer_eq]
  exact hc.answer _ span key item

/-- An offer in the sentence succeeds if its fingerprint can be taken where one is asked for. -/
theorem offer_ok {c : Chart κ σ} {policy : Policy σ} (hc : c.Follows policy) {span : Span}
    (hspan : span.Within c.length) {h : Hasher} {item : Item κ σ}
    (hf : policy.has .structuralDedup = true → ∃ f, (h.fingerprint item.derivation).1 = .ok f)
    (key : κ) : ∃ b, (c.offer h span key item).1 = .ok b := by
  obtain ⟨cell, hcell⟩ := exists_cell hspan
  rw [← hc span cell hcell] at hf
  obtain ⟨b, hb⟩ := Cell.answer_ok hf key item
  refine ⟨b, ?_⟩
  rw [offer_eq]
  dsimp only
  rw [(answer_of_ok hcell _ key item).1, hb]
  rfl

theorem table_offer (c : Chart κ σ) (h : Hasher) (span : Span) (key : κ) (item : Item κ σ) :
    (c.offer h span key item).2.2.table = h.table := by
  rw [offer_eq]
  dsimp only
  split
  · exact Hasher.table_fingerprint h item.derivation
  · rfl

/-- **A seeding is a row of offers** of the items that it makes, under their own keys, if these have
fingerprints where the policy takes them. None of the offers fails. -/
theorem addMade_eq_offerEach {S : Type} (make : Nat → ScoredCategory σ → StateM S (Item κ σ))
    {policy : Policy σ} {t : ContributionTable} : ∀ (xs : List (Nat × ScoredCategory σ))
    {c : Chart κ σ} {h : Hasher} {s : S}, (∀ x ∈ xs, x.1 < c.length) → c.Follows policy →
      h.table = t → (policy.has .structuralDedup = true →
        ∀ p ∈ made make xs s, ∃ f, t.fingerprint p.2.derivation = .ok f) →
      ∃ offers, offers.map (fun o => (o.1, o.2.2)) =
          (made make xs s).map (fun p => (p.1, p.2.key, p.2)) ∧
        (∀ o ∈ offers, o.2.1.table = t) ∧
        (addMade make xs c h s).1.2.1 = c.offerEach offers ∧
        ∃ kept, retainedIn (addMade make xs c h s).1.1 = .ok kept
  | [], c, h, s, _, _, _, _ => ⟨[], rfl, by simp, rfl, 0, rfl⟩
  | (word, candidate) :: xs, c, h, s, hxs, hc, ht, hf => by
    subst ht
    rw [made] at hf ⊢
    have hword : (Span.word word).Within c.length :=
      Span.within_word.mpr (hxs _ List.mem_cons_self)
    rcases hm : make word candidate s with ⟨item, s'⟩
    rw [hm] at hf
    have hitem : policy.has .structuralDedup = true →
        ∃ f, (h.fingerprint item.derivation).1 = .ok f :=
      fun hd => Hasher.fingerprint_ok (hf hd _ List.mem_cons_self)
    obtain ⟨b, hb⟩ := offer_ok hc hword hitem item.key
    have hlength := length_offer c h (.word word) item.key item
    have hc' := hc.offer h (.word word) item.key item
    have ht' := table_offer c h (.word word) item.key item
    rcases ho : c.offer h (.word word) item.key item with ⟨result, c', h'⟩
    rw [ho] at hb hlength hc' ht'
    obtain rfl : result = .ok b := hb
    obtain ⟨offers, h1, h2, h3, kept, h4⟩ := addMade_eq_offerEach make xs (s := s')
      (fun x hx => hlength.symm ▸ hxs x (List.mem_cons_of_mem _ hx)) hc' ht'
      fun hd p hp => hf hd p (List.mem_cons_of_mem _ hp)
    have hrest := addMade_cons_ok xs hm ho
    refine ⟨(.word word, h, item.key, item) :: offers, ?_, ?_, ?_, b.toNat + kept, ?_⟩
    · rw [List.map_cons, List.map_cons, h1]
    · rw [List.forall_mem_cons]
      exact ⟨rfl, h2⟩
    · rw [hrest, h3, offerEach, offerEach, List.foldl_cons, ho]
    · rw [hrest, retainedIn, h4]
      rfl

end Chart

end CategorialChart
