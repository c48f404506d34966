import CategorialChart.Proofs.Chart.Offers
import CategorialChart.Proofs.Tagging.Prune

/-! # From the tagger to the chart

No word loses all its categories between a tagger and a chart. Pruning leaves a candidate of each
word that has one (`Tagger.tag_getD_eq_nil`), every candidate is made an item, and the first item
that is offered to a cell lasts (`Cell.first_offer_lasts`).

* `seed_eq_offerEach`: a seeding with the rows of a sentence succeeds, and is a row of offers.
* `seed_cell`: what the cell of a span has been offered then.
* `seed_holds_words`: what the cells hold after it, and after any later offers. -/

namespace CategorialChart

namespace Chart

variable {κ σ : Type} [DecidableEq κ] [Ord κ] [LT σ] [DecidableLT σ] [Mul σ] {w w' : Workspace σ}
  {chart : Chart κ σ} {hasher : Hasher} {S : Type}
  {make : Nat → ScoredCategory σ → StateM S (Item κ σ)} {s : S}

/-- A seeding of a new chart with a row for each word succeeds if the items have fingerprints where
they are asked for. -/
theorem seed_eq_offerEach {tags : List (List (ScoredCategory σ))}
    (hnew : Chart.new w tags.length = (.ok chart, w')) (htable : hasher.table = w.hasher.table)
    (hmake : w.policy.has .structuralDedup = true → ∀ p ∈ made make (candidates 0 tags) s,
      ∃ f, w.hasher.table.fingerprint p.2.derivation = .ok f) :
    ∃ offers : List (Span × Hasher × κ × Item κ σ),
      offers.map (fun o => (o.1, o.2.2)) =
          (made make (candidates 0 tags) s).map (fun p => (p.1, p.2.key, p.2)) ∧
        (∀ o ∈ offers, o.2.1.table = w.hasher.table) ∧
        (chart.seed hasher tags make s).1.2.1 = chart.offerEach offers ∧
        ∃ kept, (chart.seed hasher tags make s).1.1 = .ok kept := by
  have hok : (Chart.new w tags.length).1 = .ok chart := by rw [hnew]
  have hlength : chart.length = tags.length := length_new hok
  have hwords : ∀ x ∈ candidates 0 tags, x.1 < chart.length := by
    intro x hx
    have := (mem_candidates hx).2
    omega
  obtain ⟨offers, h1, h2, h3, kept, h4⟩ :=
    addMade_eq_offerEach make (candidates 0 tags) hwords (follows_new hok) htable hmake
  refine ⟨offers, h1, h2, ?_, kept, ?_⟩
  · rw [seed_eq, hlength, List.take_length]
    exact h3
  · rw [seed_eq, hlength, List.take_length]
    refine (congrArg (within tags.length tags.length) h4).trans ?_
    rw [within, if_pos le_rfl]

/-- What the cell of a span holds after the seeding and any later offers: it has been offered the
items of the span, with hashers of the table, and what was offered to the span later. -/
theorem seed_cell {tags : List (List (ScoredCategory σ))}
    (hnew : Chart.new w tags.length = (.ok chart, w')) (htable : hasher.table = w.hasher.table)
    (hmake : w.policy.has .structuralDedup = true → ∀ p ∈ made make (candidates 0 tags) s,
      ∃ f, w.hasher.table.fingerprint p.2.derivation = .ok f)
    {span : Span} (hspan : span.Within tags.length) :
    ∃ past : List (Hasher × κ × Item κ σ),
      past.map Prod.snd =
          (addressed span (made make (candidates 0 tags) s)).map (fun x => (x.key, x)) ∧
        (∀ o ∈ past, o.1.table = w.hasher.table) ∧
        ∀ later : List (Span × Hasher × κ × Item κ σ),
          ((chart.seed hasher tags make s).1.2.1.offerEach later).cell span =
            .ok (w.cell.offerEach (past ++ addressed span later)).2 := by
  obtain ⟨offers, hoffers, htables, hseed, -⟩ := seed_eq_offerEach hnew htable hmake
  have hok : (Chart.new w tags.length).1 = .ok chart := by rw [hnew]
  have hin : span.Within chart.length := by rwa [length_new hok]
  obtain ⟨cell, hcell⟩ := exists_cell hin
  obtain rfl := cell_new hok hcell
  refine ⟨addressed span offers, ?_, fun o ho => htables _ (mem_of_mem_addressed ho),
    fun later => ?_⟩
  · have h := congrArg (addressed span) hoffers
    rwa [addressed_map span Prod.snd, addressed_map span fun x : Item κ σ => (x.key, x)] at h
  · rw [hseed, ← offerEach_append, ← addressed_append]
    exact cell_offerEach (offers ++ later) hcell

omit [DecidableEq κ] [Ord κ] in
/-- A word has items if a category is scored for it. -/
theorem addressed_made_eq_nil [LogScore σ] {tagger : Tagger σ} (hmax : tagger.options.maxTags ≠ 0)
    (words : List String) (position : Nat) :
    addressed (.word position) (made make (candidates 0 (tagger.tag words)) s) = [] ↔
      tagger.scored words position = [] := by
  have hfilter := filter_candidates (tagger.tag words) 0 position
  rw [Nat.zero_add] at hfilter
  rw [← List.length_eq_zero_iff, length_addressed_made, hfilter, List.length_map,
    List.length_eq_zero_iff, Tagger.tag_getD_eq_nil hmax]

/-- **No word loses all its categories.** A tagger with valid options gives each word of a sentence
its candidates, and the new chart of the sentence is seeded with the items that are made from them.
If these have fingerprints where the policy takes them, the seeding succeeds. It leaves the cell of
each word empty for which no category is scored, and so each cell of more words than one. Each other
word has items, which are offered to its cell in order, and the cell is not empty, whatever is
offered later. The first of the items lasts: it is held under its key unless the policy replaces
items and a later one under this key, of the word or of a later offer, has taken its place for a
higher inside score. -/
theorem seed_holds_words [LE σ] [DecidableLE σ] [OfNat σ 0] [OfNat σ 1] [LogScore σ]
    {tagger : Tagger σ} {beta : σ} {maxTags : Nat}
    (hoptions : TaggerOptions.validated beta maxTags = .ok tagger.options) {words : List String}
    (hrows : (tagger.scorer.rows words).length = words.length)
    (hnew : Chart.new w words.length = (.ok chart, w')) (htable : hasher.table = w.hasher.table)
    (hmake : w.policy.has .structuralDedup = true →
      ∀ p ∈ made make (candidates 0 (tagger.tag words)) s,
        ∃ f, w.hasher.table.fingerprint p.2.derivation = .ok f) :
    let seeded := (chart.seed hasher (tagger.tag words) make s).1
    let items := made make (candidates 0 (tagger.tag words)) s
    (∃ kept, seeded.1 = .ok kept) ∧
      (∀ span : Span, span.Within words.length →
        (∀ i, span = .word i → tagger.scored words i = []) →
          ∃ cell, seeded.2.1.cell span = .ok cell ∧ cell.isEmpty = true) ∧
      ∀ i < words.length, tagger.scored words i ≠ [] →
        ∃ first rest past, addressed (.word i) items = first :: rest ∧
          past.map Prod.snd = (first :: rest).map (fun x => (x.key, x)) ∧
          ∀ later : List (Span × Hasher × κ × Item κ σ),
            let offers := past ++ addressed (.word i) later
            let cell := (w.cell.offerEach offers).2
            (seeded.2.1.offerEach later).cell (.word i) = .ok cell ∧ cell.isEmpty = false ∧
              (first ∈ cell.entriesFor first.key ∨
                w.policy = .oneBestCky ∧ w.cell.Replaced first.key first offers) := by
  intro seeded items
  have hmax := TaggerOptions.maxTags_ne_zero hoptions
  have htags : (tagger.tag words).length = words.length := by
    rw [Tagger.tag, List.length_map, hrows]
  rw [← htags] at hnew
  obtain ⟨-, -, -, -, hkept⟩ := seed_eq_offerEach hnew htable hmake
  refine ⟨hkept, fun span hspan hscored => ?_, fun i hi hscored => ?_⟩
  · rw [← htags] at hspan
    obtain ⟨past, hpast, -, hcell⟩ := seed_cell hnew htable hmake hspan
    have hitems : addressed span items = [] := by
      rw [List.eq_nil_iff_forall_not_mem]
      intro x hx
      obtain ⟨⟨i, c⟩, -, rfl⟩ := mem_made make (mem_of_mem_addressed hx)
      rw [(addressed_made_eq_nil hmax words i).mpr (hscored i rfl)] at hx
      exact List.not_mem_nil hx
    have hnone : past = [] := by
      rw [hitems] at hpast
      exact List.map_eq_nil_iff.mp hpast
    have hseeded := hcell []
    rw [hnone] at hseeded
    exact ⟨w.cell, hseeded, rfl⟩
  · have hspan : (Span.word i).Within (tagger.tag words).length := by
      rw [htags]
      exact Span.within_word.mpr hi
    obtain ⟨past, hpast, htables, hcell⟩ := seed_cell hnew htable hmake hspan
    obtain ⟨first, rest, hfirst⟩ :=
      List.exists_cons_of_ne_nil (mt (addressed_made_eq_nil hmax words i).mp hscored)
    rw [hfirst] at hpast
    refine ⟨first, rest, past, hfirst, hpast, fun later => ?_⟩
    have hlater := hcell later
    obtain ⟨⟨h, o⟩, others, rfl, rfl, -⟩ := List.map_eq_cons_iff.mp hpast
    have hf : w.policy.has .structuralDedup = true →
        ∃ f, (h.fingerprint first.derivation).1 = .ok f := by
      intro hd
      have hmem : (Span.word i, first) ∈ items :=
        mem_of_mem_addressed (by rw [hfirst]; exact List.mem_cons_self)
      have htable' : h.table = w.hasher.table := htables _ List.mem_cons_self
      refine Hasher.fingerprint_ok ?_
      rw [htable']
      exact hmake hd _ hmem
    exact ⟨hlater,
      Cell.first_offer_lasts w.policy first hf (others ++ addressed (.word i) later)⟩

end Chart

namespace Forest

/-- Whole numbers as scores. -/
instance : LogScore Nat where
  lowest := 0
  exp := id
  ranks x y := y ≤ x

/-- A tagger that scores one category for the first word and none for the others. -/
def tagger : Tagger Nat where
  scorer := ⟨[phrase, determiner], fun words => [2] :: words.tail.map fun _ => []⟩
  options := ⟨1, 3⟩

/-- An item for the first node, at a cost that rises from item to item. -/
def dearer (_ : Nat) (_ : ScoredCategory Nat) : StateM Nat (Item Nat Nat) := fun n =>
  (item once n, n + 1)

theorem tag_tagger : tagger.tag ["the", "dog"] = [[⟨phrase, 2⟩], []] := by
  simp [tagger, Tagger.tag, Tagging.prune, Tagging.ranked, Tagging.cutBelow]

end Forest

open Forest in
/-- The item of the first word stays whatever is offered to the chart, and the second word has
none. -/
theorem Chart.seed_holds_words_forest :
    ∃ (chart : Chart Nat Nat) (w : Workspace Nat), Chart.new workspace 2 = (.ok chart, w) ∧
      let seeded := (chart.seed w.hasher (tagger.tag ["the", "dog"]) dearer 5).1
      (∃ kept, seeded.1 = .ok kept) ∧
        (∃ cell, seeded.2.1.cell (.word 1) = .ok cell ∧ cell.isEmpty = true) ∧
        ∀ later, ∃ cell, (seeded.2.1.offerEach later).cell (.word 0) = .ok cell ∧
          item once 5 ∈ cell.entriesFor 0 := by
  have hnew : Chart.new (κ := Nat) workspace 2 =
      (.ok ⟨2, .replicate _ workspace.cell⟩, workspace.newSentence) := rfl
  have hmade : Chart.made dearer (Chart.candidates 0 (tagger.tag ["the", "dog"])) 5 =
      [(.word 0, item once 5)] := by
    rw [tag_tagger]
    rfl
  have hmake : workspace.policy.has .structuralDedup = true →
      ∀ p ∈ Chart.made dearer (Chart.candidates 0 (tagger.tag ["the", "dog"])) 5,
        ∃ f, workspace.hasher.table.fingerprint p.2.derivation = .ok f := by
    rw [hmade, List.forall_mem_singleton]
    exact fun _ => ⟨_, rfl⟩
  have hoptions : TaggerOptions.validated 1 3 = .ok tagger.options := rfl
  have hrows : (tagger.scorer.rows ["the", "dog"]).length = ["the", "dog"].length := rfl
  obtain ⟨hkept, hempty, hheld⟩ := seed_holds_words hoptions hrows hnew rfl hmake
  refine ⟨_, _, hnew, hkept, hempty (.word 1) (by decide) fun i hi => ?_, fun later => ?_⟩
  · rw [← Span.word_inj.mp hi]
    rfl
  · have hscored : tagger.scored ["the", "dog"] 0 ≠ [] := by simp [Tagger.scored, tagger]
    obtain ⟨first, rest, past, hfirst, -, hlater⟩ := hheld 0 (by decide) hscored
    rw [hmade] at hfirst
    obtain ⟨rfl, -⟩ := List.cons.inj hfirst
    obtain ⟨hcell, -, hmem | ⟨hp, -⟩⟩ := hlater later
    · exact ⟨_, hcell, hmem⟩
    · cases hp

end CategorialChart
