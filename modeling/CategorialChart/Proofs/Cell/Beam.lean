import CategorialChart.Proofs.Cell.Counters
import CategorialChart.Proofs.Cell.Held

/-! # Cells with a beam

A cell with the policy `nBest` keeps, of the items `x₁, …, xₘ` offered under one key, the first
`limit + 1` of `x₁` and those that do not fall below the beam of `x₁` (`heldInBeam`). An item is
refused for the count if so many are held, else for the beam if it falls below it (`fate`). No item
repeats another here, so these are survivors and outcomes where nothing is the same as anything.

* `Beamed.answer`: a further offer is answered as its fate says, and keeps the invariant `Beamed`.
* `nBest_entriesFor`: what a cell holds after any offers, what it has answered and counted. -/

namespace CategorialChart

variable {κ σ : Type}

/-! ### Items that repeat no other -/

/-- No item is the same as another. -/
def never (_ _ : Item κ σ) : Bool := false

theorem never_trans (x y z : Item κ σ) (hxy : never x y = true) (_ : never y z = true) :
    never x z = true := hxy

theorem eraseDupsBy_never : ∀ xs : List (Item κ σ), xs.eraseDupsBy never = xs
  | [] => rfl
  | x :: xs => by
    have hall : xs.filter (fun y => never y x = false) = xs :=
      List.filter_eq_self.mpr fun _ _ => rfl
    rw [List.eraseDupsBy_cons, hall, eraseDupsBy_never xs]

section Scores
variable [LT σ] [DecidableLT σ] [Mul σ]

/-- **What is held** of the items that were offered under one key. -/
def heldInBeam (limit : Nat) (beam : σ) (xs : List (Item κ σ)) : List (Item κ σ) :=
  (inBeam beam xs).take (limit + 1)

/-- **What becomes of `x`** after `xs` were offered under the same key: the number of items held
is looked at before the beam, which is that of the first of `xs`. -/
def fate (limit : Nat) (beam : σ) (xs : List (Item κ σ)) (x : Item κ σ) : Option Refusal :=
  if (heldInBeam limit beam xs).length = limit + 1 then some .count
  else if belowBeam beam xs x then some .beam
  else none

/-- While there is room, the beam alone refuses. -/
theorem fate_of_room {limit : Nat} {beam : σ} {xs : List (Item κ σ)}
    (h : (heldInBeam limit beam xs).length ≤ limit) (x : Item κ σ) :
    fate limit beam xs x = if belowBeam beam xs x then some .beam else none :=
  if_neg (by omega)

theorem survivors_never (limit : Nat) (beam : σ) (xs : List (Item κ σ)) :
    survivors never limit beam xs = heldInBeam limit beam xs := by
  rw [survivors, eraseDupsBy_never, heldInBeam]

theorem outcome_never (limit : Nat) (beam : σ) (xs : List (Item κ σ)) (x : Item κ σ) :
    outcome never limit beam xs x = fate limit beam xs x := by
  have hany : (inBeam beam xs).any (never x) = false := by simp [never]
  have hlength : (heldInBeam limit beam xs).length ≤ limit + 1 := by
    rw [heldInBeam, List.length_take]
    exact Nat.min_le_left _ _
  unfold outcome fate
  rw [survivors_never, hany, if_neg Bool.false_ne_true]
  congr 1
  rw [eq_iff_iff]
  omega

variable [DecidableEq κ]

/-- What becomes of each of several offers, after those before it. -/
def fates (limit : Nat) (beam : σ) (offers : List (κ × Item κ σ)) : List (Option Refusal) :=
  offers.mapIdx fun i o => fate limit beam (under o.1 (offers.take i)) o.2

theorem outcomes_never (limit : Nat) (beam : σ) (offers : List (κ × Item κ σ)) :
    outcomes never limit beam offers = fates limit beam offers := by
  unfold outcomes fates
  simp only [outcome_never]

theorem fates_concat (limit : Nat) (beam : σ) (offers : List (κ × Item κ σ)) (o : κ × Item κ σ) :
    fates limit beam (offers ++ [o]) =
      fates limit beam offers ++ [fate limit beam (under o.1 offers) o.2] := by
  rw [← outcomes_never, ← outcomes_never, outcomes_concat, outcome_never]

end Scores

namespace Cell

variable [DecidableEq κ] [LT σ] [DecidableLT σ] [Mul σ]

/-! ### Answers -/

/-- **The invariant**: the cell holds what its offers leave, where no item repeats another. -/
structure Beamed (limit : Nat) (beam : σ) (c : Cell κ σ) (offers : List (κ × Item κ σ)) :
    Prop where
  policy : c.policy = .nBest limit beam
  holds : c.Holds never limit beam offers

variable {limit : Nat} {beam : σ} {c : Cell κ σ} {offers : List (κ × Item κ σ)}

theorem Beamed.entriesFor (hc : c.Beamed limit beam offers) (k : κ) :
    c.entriesFor k = heldInBeam limit beam (under k offers) := by
  rw [hc.holds.entriesFor, survivors_never]

variable [Ord κ]

/-- **An offer is answered as its fate says**, whatever fingerprint its item has. -/
theorem Beamed.answer (hc : c.Beamed limit beam offers) (f : Except TermError Fingerprint)
    (key : κ) (item : Item κ σ) :
    (c.answer f key item).1 = .ok (fate limit beam (under key offers) item).isNone ∧
      (c.answer f key item).2.Beamed limit beam (offers ++ [(key, item)]) := by
  have hkeyed : c.policy.has .keyed = true := by rw [hc.policy]; rfl
  have hplain : c.policy.has .structuralDedup = false := by rw [hc.policy]; rfl
  have hj : c.policy.judge (c.entriesFor key) item =
      withinBeam limit beam (survivors never limit beam (under key offers)) item := by
    rw [hc.policy, hc.holds.entriesFor]
    rfl
  rw [withinBeam_survivors] at hj
  rw [← outcome_never]
  unfold outcome
  by_cases hcount : limit < (survivors never limit beam (under key offers)).length
  · rw [if_pos hcount] at hj ⊢
    rw [answer_of_refuse hj]
    exact ⟨rfl, hc.policy, hc.holds.refuse never_trans (if_pos hcount)⟩
  rw [if_neg hcount] at hj ⊢
  by_cases hbeam : belowBeam beam (under key offers) item = true
  · rw [if_pos hbeam] at hj ⊢
    have ho : outcome never limit beam (under key offers) item = some .beam := by
      rw [outcome, if_neg hcount, if_pos hbeam]
    rw [answer_of_refuse hj]
    exact ⟨rfl, hc.policy, hc.holds.refuse never_trans ho⟩
  · rw [if_neg hbeam] at hj ⊢
    have hnew : (inBeam beam (under key offers)).any (never item) = false := by simp [never]
    have ho : outcome never limit beam (under key offers) item = none := by
      rw [outcome, if_neg hcount, if_neg hbeam, hnew, if_neg Bool.false_ne_true]
    rw [answer_of_keep hplain hj, hnew]
    exact ⟨rfl, hc.policy, hc.holds.keep never_trans hkeyed ho none⟩

/-- The counters move as the fate of the offer says. -/
theorem Beamed.stats_answer (hc : c.Beamed limit beam offers) (f : Except TermError Fingerprint)
    (key : κ) (item : Item κ σ) :
    (c.answer f key item).2.stats =
      match fate limit beam (under key offers) item with
      | none => c.stats.retained false
      | some why => c.stats.refused why := by
  rw [(hc.answer f key item).2.holds.stats, outcomes_concat, outcome_never, hc.holds.stats]
  rcases fate limit beam (under key offers) item with _ | why
  · exact tally_concat_none _
  · exact tally_concat_some _ why

/-- **While there is room** under its key, an offer is refused if it falls below the beam, and
retained if it does not. -/
theorem Beamed.answer_of_room (hc : c.Beamed limit beam offers) {key : κ}
    (hroom : (c.entriesFor key).length ≤ limit) (item : Item κ σ)
    (f : Except TermError Fingerprint) :
    (belowBeam beam (under key offers) item = true →
        (c.answer f key item).1 = .ok false ∧
          (c.answer f key item).2.stats = c.stats.refused .beam) ∧
      (belowBeam beam (under key offers) item = false →
        (c.answer f key item).1 = .ok true ∧
          (c.answer f key item).2.stats = c.stats.retained false) := by
  rw [hc.entriesFor] at hroom
  have hanswer := (hc.answer f key item).1
  have hstats := hc.stats_answer f key item
  rw [fate_of_room hroom] at hanswer hstats
  refine ⟨fun hbelow => ?_, fun hwithin => ?_⟩
  · rw [if_pos hbelow] at hanswer hstats
    exact ⟨hanswer, hstats⟩
  · rw [hwithin, if_neg Bool.false_ne_true] at hanswer hstats
    exact ⟨hanswer, hstats⟩

/-! ### Offers in a row -/

omit [Ord κ] in
/-- The offers against which there is nothing leave their items, in order. -/
theorem under_retained (limit : Nat) (beam : σ) (k : κ) (offers : List (κ × Item κ σ)) :
    under k (((offers.zip (fates limit beam offers)).filter fun p => p.2 = none).map Prod.fst) =
      heldInBeam limit beam (under k offers) := by
  induction offers using List.reverseRecOn with
  | nil => rfl
  | append_singleton offers o ih =>
    have hlength : offers.length = (fates limit beam offers).length := by simp [fates]
    rw [← survivors_never, survivors_under_concat never_trans, survivors_never, ← ih, fates_concat,
      List.zip_append hlength, List.filter_append, List.map_append, outcome_never]
    by_cases ho : fate limit beam (under o.1 offers) o.2 = none
    · have hnew : (([o].zip [fate limit beam (under o.1 offers) o.2]).filter
          fun p => p.2 = none).map Prod.fst = [o] := by simp [ho]
      rw [hnew, under_concat]
      simp only [ho, and_true]
    · have hnew : (([o].zip [fate limit beam (under o.1 offers) o.2]).filter
          fun p => p.2 = none).map Prod.fst = [] := by simp [ho]
      rw [hnew, List.append_nil, if_neg fun h => ho h.2, List.append_nil]

/-- Offers in a row are answered as their fates say. -/
theorem beamed_offerEach (limit : Nat) (beam : σ) (offers : List (Hasher × κ × Item κ σ)) :
    (({ policy := .nBest limit beam } : Cell κ σ).offerEach offers).1 =
        (fates limit beam (offers.map Prod.snd)).map (fun o => .ok o.isNone) ∧
      (({ policy := .nBest limit beam } : Cell κ σ).offerEach offers).2.Beamed limit beam
        (offers.map Prod.snd) := by
  induction offers using List.reverseRecOn with
  | nil => exact ⟨rfl, rfl, holds_empty never limit beam _⟩
  | append_singleton offers o ih =>
    obtain ⟨h1, h2⟩ := ih
    obtain ⟨h3, h4⟩ := h2.answer (o.1.fingerprint o.2.2.derivation).1 o.2.1 o.2.2
    rw [offerEach_concat, List.map_append, List.map_singleton, fates_concat, List.map_append,
      List.map_singleton]
    exact ⟨by rw [h1, h3], h4⟩

/-- **An offer among others** that finds room under its key is refused if it falls below the beam,
and retained if it does not. -/
theorem nBest_offer_of_room (limit : Nat) (beam : σ) (offers : List (Hasher × κ × Item κ σ))
    {i : Nat} (hi : i < offers.length) :
    let run := fun offers => ({ policy := .nBest limit beam } : Cell κ σ).offerEach offers
    let o := offers[i].2
    let before := (run (offers.take i)).2
    let after := (run (offers.take (i + 1))).2
    let past := under o.1 ((offers.map Prod.snd).take i)
    (before.entriesFor o.1).length ≤ limit →
      (belowBeam beam past o.2 = true → (run offers).1[i]? = some (.ok false) ∧
        after.stats = before.stats.refused .beam) ∧
      (belowBeam beam past o.2 = false → (run offers).1[i]? = some (.ok true) ∧
        after.stats = before.stats.retained false) := by
  intro run o before after past hroom
  have hbefore : before.Beamed limit beam ((offers.map Prod.snd).take i) := by
    rw [← List.map_take]
    exact (beamed_offerEach limit beam (offers.take i)).2
  obtain ⟨hanswer, hafter⟩ := offerEach_at ({ policy := .nBest limit beam } : Cell κ σ) offers hi
  obtain ⟨hbelow, hwithin⟩ := hbefore.answer_of_room hroom o.2
    (offers[i].1.fingerprint o.2.derivation).1
  refine ⟨fun h => ?_, fun h => ?_⟩
  · exact ⟨hanswer.trans (congrArg some (hbelow h).1),
      (congrArg Cell.stats hafter).trans (hbelow h).2⟩
  · exact ⟨hanswer.trans (congrArg some (hwithin h).1),
      (congrArg Cell.stats hafter).trans (hwithin h).2⟩

/-- **An n-best cell in closed form.** Under each key it holds the first `limit + 1` of the first
item offered under the key and the later ones that do not fall below the beam of this first item, in
the order of arrival. These are the items whose offers were answered with `true`. Any other offer
was refused for the count if `limit + 1` items were held under its key, else for the beam, and has
been counted so. Offers under other keys play no part, nor do the hashers. -/
theorem nBest_entriesFor (limit : Nat) (beam : σ) (offers : List (Hasher × κ × Item κ σ)) :
    let r := ({ policy := .nBest limit beam } : Cell κ σ).offerEach offers
    let keyed := offers.map Prod.snd
    (∀ k, r.2.entriesFor k = heldInBeam limit beam (under k keyed)) ∧
      r.1 = (fates limit beam keyed).map (fun o => .ok o.isNone) ∧
      (∀ k, under k (((keyed.zip (fates limit beam keyed)).filter fun p => p.2 = none).map
        Prod.fst) = r.2.entriesFor k) ∧
      r.2.stats = tally (fates limit beam keyed) := by
  intro r keyed
  obtain ⟨h1, h2⟩ := beamed_offerEach limit beam offers
  refine ⟨h2.entriesFor, h1, fun k => ?_, ?_⟩
  · rw [h2.entriesFor, under_retained]
  · rw [← outcomes_never]
    exact h2.holds.stats

end Cell

end CategorialChart
