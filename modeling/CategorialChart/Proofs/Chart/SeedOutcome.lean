import CategorialChart.Proofs.Chart.Counters
import CategorialChart.Proofs.Chart.Offers

/-! # The outcome of a seeding

A seeding calls for an item for each candidate of the words of the sentence and offers it to the
cell of its word. If none of these offers fails, nothing else decides what the seeding does: it is
the row of offers (`addMade_eq_addAll`), and the number of rows alone decides whether it succeeds.
So rows beyond the sentence are an error that comes too late to undo anything or to leave a word
out.

* `taken`: the number of offers that were answered by retaining the item, which is the number a
  seeding returns, and by which the admitted items grow (`admitted_addAll`).
* `recording`: the calls for items, put on record.
* `seed_outcome`: all that a seeding does to a chart that came about by offers and seedings. -/

namespace CategorialChart

variable {κ σ : Type}

/-- The number of results that report an item as retained. -/
def taken {ε : Type} (results : List (Except ε Bool)) : Nat :=
  results.countP fun
    | .ok retained => retained
    | .error _ => false

theorem taken_cons {ε : Type} (r : Except ε Bool) (rs : List (Except ε Bool)) :
    taken (r :: rs) = taken [r] + taken rs := by
  unfold taken
  rw [List.countP_cons, List.countP_singleton, Nat.add_comm]

theorem taken_mapError {ε ε' : Type} (f : ε → ε') (r : Except ε Bool) :
    taken [r.mapError f] = taken [r] := by
  cases r <;> rfl

namespace Chart

/-- The number of items that the spans of a chart hold. -/
def size (c : Chart κ σ) : Nat := (c.spans.map fun p => p.2.size).sum

/-- Without a failure, the items retained are counted. -/
theorem retainedIn_eq_taken : ∀ {results : List (Except ChartError Bool)},
    (∀ r ∈ results, ∃ b, r = .ok b) → retainedIn results = .ok (taken results)
  | [], _ => rfl
  | r :: results, h => by
    have hrest := retainedIn_eq_taken fun r' hr' => h r' (List.mem_cons_of_mem r hr')
    obtain ⟨b, rfl⟩ := h r List.mem_cons_self
    rw [retainedIn, hrest, taken_cons]
    cases b <;> rfl

/-! ### Calls -/

section Calls
variable {S : Type} (make : Nat → ScoredCategory σ → StateM S (Item κ σ))

/-- The state after a call for each candidate, in order. -/
def called (xs : List (Nat × ScoredCategory σ)) (s : S) : S :=
  xs.foldl (fun s x => (make x.1 x.2 s).2) s

/-- The items are made as before, and each call is put on record. -/
def recording (word : Nat) (candidate : ScoredCategory σ) :
    StateM (S × List (Nat × ScoredCategory σ)) (Item κ σ) := fun (s, record) =>
  ((make word candidate s).1, (make word candidate s).2, record ++ [(word, candidate)])

theorem made_recording : ∀ (xs : List (Nat × ScoredCategory σ)) (s : S)
    (record : List (Nat × ScoredCategory σ)),
    made (recording make) xs (s, record) = made make xs s
  | [], _, _ => rfl
  | (word, candidate) :: xs, s, record =>
    congrArg (List.cons _)
      (made_recording xs (make word candidate s).2 (record ++ [(word, candidate)]))

/-- The record of calls for candidates are these candidates. -/
theorem called_recording : ∀ (xs : List (Nat × ScoredCategory σ)) (s : S)
    (record : List (Nat × ScoredCategory σ)),
    called (recording make) xs (s, record) = (called make xs s, record ++ xs)
  | [], s, record => by rw [List.append_nil]; rfl
  | (word, candidate) :: xs, s, record => by
    have ih := called_recording xs (make word candidate s).2 (record ++ [(word, candidate)])
    rw [List.append_assoc, List.singleton_append] at ih
    exact ih

end Calls

end Chart

variable [DecidableEq κ] [Ord κ] [LT σ] [DecidableLT σ] [Mul σ]

/-- A cell counts an item as admitted if it answers that it retains it. -/
theorem Cell.admitted_answer (c : Cell κ σ) (f : Except TermError Fingerprint) (key : κ)
    (item : Item κ σ) : (c.answer f key item).2.stats.admitted =
      c.stats.admitted + taken [(c.answer f key item).1] := by
  rcases c.answer_cases f key item with ⟨why, h⟩ | h | ⟨e, h⟩ | ⟨g, h⟩ <;> rw [h]
  · cases why <;> rfl
  all_goals rfl

namespace Chart

variable {c : Chart κ σ} {h : Hasher} {offers : List (Span × Item κ σ)}

/-! ### Offers to the cells of a chart -/

/-- An offer in the sentence fails for want of a fingerprint only. -/
theorem add_error {span : Span} (hs : span.Within c.length) {item : Item κ σ} {e : ChartError}
    (he : (c.add h span item).1 = .error e) : ∃ cause, e = .fingerprint cause := by
  obtain ⟨cell, -, hresult, -⟩ := offer_exchanges hs h item.key item
  rw [add, hresult] at he
  rcases hr : (cell.answer (h.fingerprint item.derivation).1 item.key item).1 with cause | b
  · rw [hr] at he
    exact ⟨cause, (Except.error.inj he).symm⟩
  · rw [hr] at he
    cases he

theorem addAll_ok : ∀ {offers : List (Span × Item κ σ)} {c : Chart κ σ} {h : Hasher},
    (∀ o ∈ offers, o.1.Within c.length) →
    (∀ cause, .error (.fingerprint cause) ∉ (c.addAll h offers).1) →
      ∀ r ∈ (c.addAll h offers).1, ∃ b, r = .ok b
  | [], _, _, _, _, r, hr => absurd hr List.not_mem_nil
  | (span, item) :: offers, c, h, hin, hf, r, hr => by
    rw [addAll_cons] at hf hr
    rcases List.mem_cons.mp hr with rfl | hr
    · rcases ha : (c.add h span item).1 with e | b
      · obtain ⟨cause, rfl⟩ := add_error (hin _ List.mem_cons_self) ha
        exact absurd (List.mem_cons.mpr (Or.inl ha.symm)) (hf cause)
      · exact ⟨b, rfl⟩
    · have hlength : (c.add h span item).2.1.length = c.length :=
        length_offer c h span item.key item
      refine addAll_ok (fun o ho => ?_) (fun cause hm => ?_) r hr
      · rw [hlength]
        exact hin o (List.mem_cons_of_mem _ ho)
      · exact hf cause (List.mem_cons_of_mem _ hm)

theorem admitted_add (c : Chart κ σ) (h : Hasher) (span : Span) (item : Item κ σ) :
    (c.add h span item).2.1.stats.admitted =
      c.stats.admitted + taken [(c.add h span item).1] := by
  by_cases hs : span.Within c.length
  · obtain ⟨cell, -, hresult, -, hsum⟩ := offer_exchanges hs h item.key item
    have hadmitted := hsum fun cell => cell.stats.admitted
    have hstats := fun c : Chart κ σ => stats_sum (f := Stats.admitted) (fun s t => rfl) rfl c
    rw [Cell.admitted_answer] at hadmitted
    rw [add, hstats, hstats, hresult, taken_mapError]
    omega
  · rw [add_outside hs]
    rfl

/-- **The admitted items grow** by those that the offers report as retained. -/
theorem admitted_addAll : ∀ (offers : List (Span × Item κ σ)) (c : Chart κ σ) (h : Hasher),
    (c.addAll h offers).2.1.stats.admitted = c.stats.admitted + taken (c.addAll h offers).1
  | [], _, _ => rfl
  | (span, item) :: offers, c, h => by
    rw [addAll_cons, admitted_addAll offers, admitted_add, Nat.add_assoc, ← taken_cons]

/-- The cell of a span that nothing is addressed to stays as it is. -/
theorem cell_addAll_elsewhere {span : Span} : ∀ {offers : List (Span × Item κ σ)} {c : Chart κ σ}
    {h : Hasher}, (∀ o ∈ offers, o.1 ≠ span) → (c.addAll h offers).2.1.cell span = c.cell span
  | [], _, _, _ => rfl
  | (span', item) :: offers, c, h, hne => by
    rw [addAll_cons]
    exact (cell_addAll_elsewhere fun o ho => hne o (List.mem_cons_of_mem _ ho)).trans
      (add_elsewhere (hne _ List.mem_cons_self) c h item)

/-! ### Charts that come about by offers and seedings -/

theorem length_addMade {S : Type} (make : Nat → ScoredCategory σ → StateM S (Item κ σ)) :
    ∀ (xs : List (Nat × ScoredCategory σ)) (c : Chart κ σ) (h : Hasher) (s : S),
      (addMade make xs c h s).1.2.1.length = c.length
  | [], _, _, _ => rfl
  | (word, candidate) :: xs, c, h, s => by
    rcases hm : make word candidate s with ⟨item, s'⟩
    have hlength := length_offer c h (.word word) item.key item
    rcases ho : c.offer h (.word word) item.key item with ⟨e | b, c', h'⟩ <;> rw [ho] at hlength
    · rw [addMade_cons_error xs hm ho]
      exact hlength
    · rw [addMade_cons_ok xs hm ho]
      exact (length_addMade make xs c' h' s').trans hlength

variable {w : Workspace σ} {n answered : Nat}

theorem Grown.length (hc : c.Grown w n answered) : c.length = n := by
  induction hc with
  | new h => exact length_new h
  | offer h span key item _ ih => exact (length_offer _ h span key item).trans ih
  | seed h tags make s _ ih =>
    rw [seed_eq]
    exact (length_addMade make _ _ h s).trans ih

theorem Grown.addAll (hc : c.Grown w n answered) (h : Hasher) (offers : List (Span × Item κ σ)) :
    ∃ answered', (c.addAll h offers).2.1.Grown w n answered' :=
  transcript_keeps (P := fun s : Chart κ σ × Hasher => ∃ answered', s.1.Grown w n answered')
    (fun s o ⟨_, hs⟩ => ⟨_, hs.offer s.2 o.1 o.2.key o.2⟩) offers ⟨answered, hc⟩

/-! ### Seeding -/

/-- **Without a failure, making and adding items** is to make all of them and to add them. -/
theorem addMade_eq_addAll {S : Type} (make : Nat → ScoredCategory σ → StateM S (Item κ σ)) :
    ∀ (xs : List (Nat × ScoredCategory σ)) {c : Chart κ σ} {h : Hasher} {s : S},
      (∀ r ∈ (c.addAll h (made make xs s)).1, ∃ b, r = .ok b) →
        addMade make xs c h s = (c.addAll h (made make xs s), called make xs s)
  | [], _, _, _, _ => rfl
  | (word, candidate) :: xs, c, h, s, hok => by
    rcases hm : make word candidate s with ⟨item, s'⟩
    rw [made, addAll_cons, hm] at hok ⊢
    obtain ⟨b, hb⟩ := hok _ List.mem_cons_self
    rcases ho : c.offer h (.word word) item.key item with ⟨result, c', h'⟩
    have ha : c.add h (.word word) item = (result, c', h') := ho
    rw [ha] at hok hb ⊢
    obtain rfl : result = .ok b := hb
    rw [addMade_cons_ok xs hm ho,
      addMade_eq_addAll make xs fun r hr => hok r (List.mem_cons_of_mem _ hr)]
    rw [called, called, List.foldl_cons, hm]

/-- What a seeding that keeps a state answers, and what it leaves. -/
theorem seed_run {S : Type} (make : Nat → ScoredCategory σ → StateM S (Item κ σ)) (c : Chart κ σ)
    (h : Hasher) (tags : List (List (ScoredCategory σ))) (s : S) :
    let run := addMade make (candidates 0 (tags.take c.length)) c h s
    c.seed h tags make s =
      ((within c.length tags.length (retainedIn run.1.1), run.1.2), run.2) := by
  rw [seed_eq]
  rfl

omit [DecidableEq κ] [Ord κ] [LT σ] [DecidableLT σ] [Mul σ] in
/-- Items that are made for the words of the sentence are offered to the cells of these words. -/
theorem made_within {S : Type} (make : Nat → ScoredCategory σ → StateM S (Item κ σ))
    (tags : List (List (ScoredCategory σ))) (n : Nat) (s : S) :
    ∀ o ∈ made make (candidates 0 (tags.take n)) s, ∃ i < n, o.1 = .word i := by
  intro o ho
  obtain ⟨x, hx, hspan⟩ := mem_made make ho
  have hword := (mem_candidates hx).2
  rw [List.length_take] at hword
  exact ⟨x.1, by omega, hspan⟩

/-- **What a seeding does** to a chart that came about in any way, if no offer of an item that is
made fails for want of a fingerprint. The seeding fails if and only if there are more rows than
words. Either way there is one call for each candidate of the rows of the sentence, in order, and no
other, and the chart and the hasher end as after the offers of the items, in this order, to the
cells of their words. So the cells of more words than one stay as they are. What a seeding returns
is the number of offers that were answered by retaining the item. The admitted items grow by this
number, and the items held grow by it less the replacements. -/
theorem seed_outcome {w : Workspace σ} {n answered : Nat} {c : Chart κ σ}
    (hc : c.Grown w n answered) (hasher : Hasher) (tags : List (List (ScoredCategory σ)))
    {S : Type} (make : Nat → ScoredCategory σ → StateM S (Item κ σ)) (s : S)
    (hmake : ∀ cause, .error (.fingerprint cause) ∉
      (c.addAll hasher (made make (candidates 0 (tags.take n)) s)).1) :
    let calls := candidates 0 (tags.take n)
    let offers := c.addAll hasher (made make calls s)
    let after := offers.2.1
    let kept := taken offers.1
    c.seed hasher tags make s =
        ((if tags.length ≤ n then .ok kept else .error (.spanOutOfRange n (n + 1) n), offers.2),
          called make calls s) ∧
      (∀ record, (c.seed hasher tags (recording make) (s, record)).2 =
        (called make calls s, record ++ calls)) ∧
      (∀ span : Span, span.start + 2 ≤ span.stop → after.cell span = c.cell span) ∧
      after.stats.admitted = c.stats.admitted + kept ∧
      (after.size : Int) - c.size = kept - (after.stats.replaced - c.stats.replaced) := by
  intro calls offers after kept
  have hlength := hc.length
  have hwords := made_within make tags n s
  have hok : ∀ r ∈ offers.1, ∃ b, r = .ok b := by
    refine addAll_ok (fun o ho => ?_) hmake
    obtain ⟨i, hi, hspan⟩ := hwords o ho
    rw [hspan, hlength]
    exact Span.within_word.mpr hi
  have hadmitted : after.stats.admitted = c.stats.admitted + kept := admitted_addAll _ c hasher
  refine ⟨?_, fun record => ?_, fun span hspan => ?_, hadmitted, ?_⟩
  · rw [seed_run, hlength, addMade_eq_addAll make calls hok, retainedIn_eq_taken hok]
    rfl
  · have hrecord := made_recording make calls s record
    rw [seed_run, hlength, addMade_eq_addAll (recording make) calls (by rw [hrecord]; exact hok)]
    exact called_recording make calls s record
  · refine cell_addAll_elsewhere fun o ho => ?_
    obtain ⟨i, -, ho⟩ := hwords o ho
    rw [ho]
    rintro rfl
    simp only [Span.word] at hspan
    omega
  · -- what is held is what was admitted and not replaced, before the seeding and after it
    obtain ⟨answered', hafter⟩ := hc.addAll hasher (made make calls s)
    have hheld : c.size + c.stats.replaced = c.stats.admitted := hc.accounted.balanced.1.held
    have hheld' : after.size + after.stats.replaced = after.stats.admitted :=
      hafter.accounted.balanced.1.held
    omega

end Chart

open Forest in
/-- A row too many is an error, but not before the second item of the first word has replaced the
first. Without this row the seeding leaves the same chart, and returns that it has retained two
items, of which one is held. -/
theorem Chart.seed_outcome_forest :
    ∃ c : Chart Nat Nat, c.Grown replacing 2 0 ∧
      ∃ after, (c.seed { table } tags better 0).1 =
          (.error (.spanOutOfRange 2 3 2), after, { table }) ∧
        (c.seed { table } (tags.take 2) better 0).1 = (.ok 2, after, { table }) ∧
        after.stats.replaced = 1 ∧ after.size = 1 := by
  have hnew : Chart.Grown replacing 2 (⟨2, .replicate _ replacing.cell⟩ : Chart Nat Nat) 0 :=
    .new rfl
  have hoffers : ((⟨2, .replicate _ replacing.cell⟩ : Chart Nat Nat).addAll { table }
      (made better (candidates 0 (tags.take 2)) 0)).1 = [.ok true, .ok true] := rfl
  have hmake : ∀ cause, .error (.fingerprint cause) ∉
      ((⟨2, .replicate _ replacing.cell⟩ : Chart Nat Nat).addAll { table }
        (made better (candidates 0 (tags.take 2)) 0)).1 := by
    intro cause
    simp [hoffers]
  obtain ⟨hfails, -⟩ := seed_outcome hnew { table } tags better 0 hmake
  obtain ⟨hsucceeds, -⟩ := seed_outcome hnew { table } (tags.take 2) better 0 hmake
  exact ⟨_, hnew, _, congrArg Prod.fst hfails, congrArg Prod.fst hsucceeds, by decide, by decide⟩

end CategorialChart
