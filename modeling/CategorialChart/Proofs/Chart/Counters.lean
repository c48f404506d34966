import CategorialChart.Proofs.Cell.Counters
import CategorialChart.Proofs.Chart.Seeding
import CategorialChart.Proofs.Chart.Triangle

/-! # The counters of a chart

The counters of a chart are those of its cells together. They are balanced for what all cells hold,
and they count the offers that were answered, an offer outside the sentence not being one.

* `Chart.Grown`: the charts that come about by offers and by seeding, with the number of offers that
  their cells have answered.
* `counters_balanced`: the counters of cells, and of the charts that come about in this way. -/

namespace CategorialChart

variable {κ σ : Type}

theorem returned_mapError {ε ε' α : Type} (f : ε → ε') (r : Except ε α) :
    returned [r.mapError f] = returned [r] := by
  cases r <;> rfl

/-- A sum after one summand was exchanged. -/
theorem sum_map_set {α : Type} (f : α → Nat) (a : α) : ∀ {l : List α} {i : Nat} (h : i < l.length),
    ((l.set i a).map f).sum + f l[i] = (l.map f).sum + f a
  | b :: l, 0, _ => by
    simp only [List.set_cons_zero, List.map_cons, List.sum_cons, List.getElem_cons_zero]
    omega
  | b :: l, i + 1, h => by
    have ih := sum_map_set f a (Nat.lt_of_succ_lt_succ h)
    simp only [List.set_cons_succ, List.map_cons, List.sum_cons, List.getElem_cons_succ]
    omega

namespace Chart

variable [DecidableEq κ]

/-- **The account of a chart** whose cells have answered a number of offers together. -/
structure Accounted (policy : Policy σ) (c : Chart κ σ) (answered : Nat) : Prop where
  cells : ∀ cell ∈ c.cells.toList, cell.Accounted policy cell.stats.offered
  offered : (c.cells.toList.map fun cell => cell.stats.offered).sum = answered

variable {policy : Policy σ} {c : Chart κ σ} {answered : Nat}

omit [DecidableEq κ] in
/-- A counter of a chart is the sum of those of its cells. -/
theorem stats_sum {f : Stats → Nat} (hf : ∀ s t, f (s + t) = f s + f t) (hzero : f {} = 0)
    (c : Chart κ σ) : f c.stats = (c.cells.toList.map fun cell => f cell.stats).sum := by
  have hfold : ∀ (cells : List (Cell κ σ)) (total : Stats),
      f (cells.foldl (fun total cell => total + cell.stats) total) =
        f total + (cells.map fun cell => f cell.stats).sum := by
    intro cells
    induction cells with
    | nil => exact fun total => rfl
    | cons cell cells ih =>
      intro total
      rw [List.foldl_cons, ih, hf, List.map_cons, List.sum_cons, Nat.add_assoc]
  rw [Chart.stats, hfold, hzero, Nat.zero_add]

/-- The counters of several cells are balanced for what these hold together. -/
theorem balanced_foldl : ∀ {cells : List (Cell κ σ)} {total : Stats} {size : Nat},
    (∀ cell ∈ cells, cell.Accounted policy cell.stats.offered) →
    total.Balanced policy size →
      (cells.foldl (fun total cell => total + cell.stats) total).Balanced policy
        (size + (cells.map Cell.size).sum)
  | [], total, size, _, ht => ht
  | cell :: cells, total, size, hcells, ht => by
    have hcell := hcells cell List.mem_cons_self
    have hrest := balanced_foldl
      (fun cell' hm => hcells cell' (List.mem_cons_of_mem cell hm)) (ht.add hcell.balanced)
    rw [List.map_cons, List.sum_cons, ← Nat.add_assoc]
    exact hrest

/-- **The counters of a chart** are balanced for what its spans hold. -/
theorem Accounted.balanced (hc : c.Accounted policy answered) :
    c.stats.Balanced policy (c.spans.map fun p => p.2.size).sum ∧ c.stats.offered = answered := by
  have hcells := balanced_foldl hc.cells (Stats.balanced_empty policy)
  have hsize : (c.spans.map fun p => p.2.size).sum = (c.cells.toList.map Cell.size).sum :=
    sum_spans c fun cell he => by simpa [Cell.isEmpty] using he
  rw [Nat.zero_add] at hcells
  rw [hsize]
  exact ⟨hcells, (stats_sum Stats.offered_add rfl c).trans hc.offered⟩

theorem accounted_new {w : Workspace σ} {n : Nat} (h : (Chart.new w n).1 = .ok c) :
    c.Accounted w.policy 0 := by
  have hcells : c.cells.toList = List.replicate (spanCount c.length) w.cell := by
    rw [Chart.eq_of_new h]
    exact Vector.toList_replicate
  refine ⟨fun cell hm => ?_, ?_⟩
  · rw [hcells] at hm
    rw [List.eq_of_mem_replicate hm]
    exact Cell.accounted_empty w.policy
  · rw [hcells]
    simp [Workspace.cell]

variable [Ord κ] [LT σ] [DecidableLT σ] [Mul σ]

/-- An offer in the sentence exchanges one cell for what becomes of it. -/
theorem offer_exchanges {span : Span} (hs : span.Within c.length) (h : Hasher) (key : κ)
    (item : Item κ σ) :
    ∃ cell ∈ c.cells.toList,
      let after := cell.answer (h.fingerprint item.derivation).1 key item
      (c.offer h span key item).1 = after.1.mapError .fingerprint ∧
        (∀ d ∈ (c.offer h span key item).2.1.cells.toList, d ∈ c.cells.toList ∨ d = after.2) ∧
        ∀ f : Cell κ σ → Nat, ((c.offer h span key item).2.1.cells.toList.map f).sum + f cell =
          (c.cells.toList.map f).sum + f after.2 := by
  have hplace : span.index < spanCount c.length := Span.index_lt hs
  have hlt : span.index < c.cells.toList.length := by simpa using hplace
  have hget : c.cells.toList[span.index] = c.cells[span.index] := by simp
  have hmem : c.cells[span.index] ∈ c.cells.toList := hget ▸ List.getElem_mem hlt
  rw [offer_eq, Chart.answer, dif_pos hs]
  refine ⟨c.cells[span.index], hmem, rfl, fun d hd => ?_, fun f => ?_⟩
  · rw [Vector.toList_set] at hd
    exact List.mem_or_eq_of_mem_set hd
  · have hset := sum_map_set f (c.cells[span.index].answer
      (h.fingerprint item.derivation).1 key item).2 hlt
    rw [hget] at hset
    rw [Vector.toList_set]
    exact hset

/-- **An offer keeps the account**: in the sentence it is one of a cell, else it is none. -/
theorem Accounted.offer (hc : c.Accounted policy answered) (h : Hasher) (span : Span) (key : κ)
    (item : Item κ σ) :
    (c.offer h span key item).2.1.Accounted policy
      (answered + returned [(c.offer h span key item).1]) := by
  by_cases hs : span.Within c.length
  · obtain ⟨cell, hcell, hresult, hcells, hsum⟩ := offer_exchanges hs h key item
    have hafter := (hc.cells cell hcell).answer (h.fingerprint item.derivation).1 key item
    have hoffered := hsum fun cell => cell.stats.offered
    rw [hc.offered, hafter.offered] at hoffered
    refine ⟨fun d hd => ?_, ?_⟩
    · rcases hcells d hd with hd | rfl
      · exact hc.cells d hd
      · rw [hafter.offered]
        exact hafter
    · rw [hresult, returned_mapError]
      omega
  · unfold Chart.offer
    rw [dif_neg hs]
    exact hc

theorem Accounted.addMade {S : Type} (make : Nat → ScoredCategory σ → StateM S (Item κ σ)) :
    ∀ (xs : List (Nat × ScoredCategory σ)) {c : Chart κ σ} {answered : Nat} (h : Hasher) (s : S),
      c.Accounted policy answered →
        (addMade make xs c h s).1.2.1.Accounted policy
          (answered + returned (addMade make xs c h s).1.1)
  | [], c, answered, h, s, hc => hc
  | (word, candidate) :: xs, c, answered, h, s, hc => by
    rcases hm : make word candidate s with ⟨item, s'⟩
    have hitem := hc.offer h (.word word) item.key item
    rcases ho : c.offer h (.word word) item.key item with ⟨e | b, c', h'⟩ <;> rw [ho] at hitem
    · rw [addMade_cons_error xs hm ho]
      exact hitem
    · have hrest := Accounted.addMade make xs h' s' hitem
      rw [Nat.add_assoc, ← returned_cons] at hrest
      rw [addMade_cons_ok xs hm ho]
      exact hrest

/-- The chart comes about from that of a sentence by offers and by seeding, failed ones among them,
whichever hashers take the fingerprints, and its cells have answered a number of offers. A seeding
is the row of offers that it makes (`seed_eq`). -/
inductive Grown (w : Workspace σ) (n : Nat) : Chart κ σ → Nat → Prop
  | new {c : Chart κ σ} : (Chart.new w n).1 = .ok c → Grown w n c 0
  | offer {c : Chart κ σ} {answered : Nat} (h : Hasher) (span : Span) (key : κ)
      (item : Item κ σ) : Grown w n c answered →
        Grown w n (c.offer h span key item).2.1 (answered + returned [(c.offer h span key item).1])
  | seed {c : Chart κ σ} {answered : Nat} {S : Type} (h : Hasher)
      (tags : List (List (ScoredCategory σ)))
      (make : Nat → ScoredCategory σ → StateM S (Item κ σ)) (s : S) : Grown w n c answered →
        Grown w n (c.seed h tags make s).1.2.1 (answered +
          returned (Chart.addMade make (candidates 0 (tags.take c.length)) c h s).1.1)

theorem Grown.accounted {w : Workspace σ} {n : Nat} {c : Chart κ σ} {answered : Nat}
    (hc : c.Grown w n answered) : c.Accounted w.policy answered := by
  induction hc with
  | new h => exact accounted_new h
  | offer h span key item _ ih => exact ih.offer h span key item
  | @seed c answered S h tags make s _ ih =>
    rw [seed_eq]
    exact ih.addMade make (candidates 0 (tags.take c.length)) h s

/-- **The counters are balanced.** Whatever is offered to a cell, its counters are balanced for its
policy and its size, and count the offers that were answered. So are the counters of a chart for
what its spans hold together, and they count the offers that its cells have answered, whether they
were made one by one or by seeding. -/
theorem counters_balanced :
    (∀ (policy : Policy σ) (offers : List (Hasher × κ × Item κ σ)),
      let r := ({ policy := policy } : Cell κ σ).offerEach offers
      r.2.stats.Balanced policy r.2.size ∧ r.2.stats.offered = returned r.1) ∧
    ∀ (w : Workspace σ) (n : Nat) (c : Chart κ σ) (answered : Nat), c.Grown w n answered →
      c.stats.Balanced w.policy (c.spans.map fun p => p.2.size).sum ∧
        c.stats.offered = answered := by
  refine ⟨fun policy offers => ?_, fun w n c answered hc => hc.accounted.balanced⟩
  have h := Cell.accounted_offers offers (Cell.accounted_empty policy)
  exact ⟨h.balanced, h.offered.trans (Nat.zero_add _)⟩

end Chart

namespace Forest

/-- A workspace whose cells replace items. -/
def replacing : Workspace Nat := ⟨.oneBestCky, { table }⟩

/-- Two candidates for the first word, none for the second, and one beyond them. -/
def tags : List (List (ScoredCategory Nat)) := [[⟨phrase, 0⟩, ⟨phrase, 1⟩], [], [⟨phrase, 0⟩]]

/-- An item that scores more than the one before. -/
def better (_ : Nat) (_ : ScoredCategory Nat) : StateM Nat (Item Nat Nat) := fun n =>
  (⟨once, 0, n, 0⟩, n + 1)

end Forest

open Forest in
/-- A seeding that fails after one item has replaced another, and an offer outside the sentence. -/
theorem Chart.counters_balanced_forest :
    ∃ c : Chart Nat Nat, c.Grown replacing 2 2 ∧
      c.stats.Balanced (.oneBestCky : Policy Nat) (c.spans.map fun p => p.2.size).sum ∧
      c.stats.offered = 2 ∧ c.stats.replaced = 1 := by
  have hnew : Chart.Grown replacing 2 (⟨2, .replicate _ replacing.cell⟩ : Chart Nat Nat) 0 :=
    .new rfl
  have hgrown := Chart.Grown.offer { table } ⟨1, 3⟩ 0 (item once 3)
    (Chart.Grown.seed { table } tags better 0 hnew)
  obtain ⟨hbalanced, hoffered⟩ := counters_balanced.2 _ _ _ _ hgrown
  exact ⟨_, hgrown, hbalanced, hoffered, by decide⟩

end CategorialChart
