import CategorialChart.Proofs.Cell.Beam
import CategorialChart.Proofs.Cell.Failure
import CategorialChart.Proofs.Cell.Listing
import Mathlib.Algebra.Order.Ring.Rat
import Mathlib.Order.Interval.Set.Defs
import Mathlib.Tactic.Linarith

/-! # The beam under rising costs

The n-best policies are meant for offers that come best first: under each key the costs never fall
(`Rising`). The beam of an n-best cell is a fraction of the first cost, and what it does depends on
the sign of this cost. A fraction of a cost that is not negative is no higher than the cost itself,
so nothing that comes later falls below it. A fraction of a negative cost is higher, and the items
between the two are refused, those first that cost no more than the first item does.

* `belowBeam_iff`: the costs that fall below the beam.
* `fates_of_nonneg`: what becomes of offers whose costs are not negative, whatever the beam.
* `beam_of_rising`: what the beam refuses, and when it plays no part. -/

namespace CategorialChart

variable {κ : Type}

/-! ### One key -/

section Items
variable {limit : Nat} {beam : ℚ} {xs : List (Item κ ℚ)} {x : Item κ ℚ}

/-- **What falls below the beam** is what costs at least the first item, if this is negative, and
less than the fraction of it. -/
theorem belowBeam_iff (hb : beam ≤ 1) (h : (xs ++ [x]).Pairwise fun y z => y.cost ≤ z.cost) :
    belowBeam beam xs x = true ↔
      ∃ first ∈ xs.head?, first.cost < 0 ∧ x.cost ∈ Set.Ico first.cost (beam * first.cost) := by
  rcases xs with _ | ⟨first, rest⟩
  · simp [belowBeam]
  have hle : first.cost ≤ x.cost := List.rel_of_pairwise_cons h (by simp)
  simp only [belowBeam, decide_eq_true_eq, List.head?_cons, Option.mem_some_iff, exists_eq_left',
    Set.mem_Ico]
  refine ⟨fun hlt => ⟨?_, hle, hlt⟩, fun hlt => hlt.2.2⟩
  by_contra hfirst
  have hbeam : beam * first.cost ≤ first.cost := mul_le_of_le_one_left (not_lt.mp hfirst) hb
  exact absurd (hlt.trans_le hbeam) (not_lt.mpr hle)

theorem belowBeam_of_nonneg (hb : beam ≤ 1) (h : (xs ++ [x]).Pairwise fun y z => y.cost ≤ z.cost)
    (hxs : ∀ y ∈ xs, 0 ≤ y.cost) : belowBeam beam xs x = false := by
  rw [← Bool.not_eq_true, belowBeam_iff hb h]
  rintro ⟨first, hfirst, hneg, -⟩
  exact absurd hneg (not_lt.mpr (hxs first (List.mem_of_mem_head? hfirst)))

theorem inBeam_of_nonneg (hb : beam ≤ 1) (h : xs.Pairwise fun y z => y.cost ≤ z.cost)
    (hxs : ∀ y ∈ xs, 0 ≤ y.cost) : inBeam beam xs = xs := by
  induction xs using List.reverseRecOn with
  | nil => rfl
  | append_singleton xs x ih =>
    have hpast : ∀ y ∈ xs, 0 ≤ y.cost := fun y hy => hxs y (List.mem_append_left _ hy)
    rw [inBeam_concat, ih (List.pairwise_append.mp h).1 hpast, belowBeam_of_nonneg hb h hpast,
      if_neg Bool.false_ne_true]

/-- Costs that are not negative are limited in number only. -/
theorem fate_of_nonneg (hb : beam ≤ 1) (h : (xs ++ [x]).Pairwise fun y z => y.cost ≤ z.cost)
    (hxs : ∀ y ∈ xs, 0 ≤ y.cost) :
    fate limit beam xs x = if limit < xs.length then some .count else none := by
  have hbelow := belowBeam_of_nonneg hb h hxs
  unfold fate
  rw [heldInBeam, inBeam_of_nonneg hb (List.pairwise_append.mp h).1 hxs, hbelow,
    if_neg Bool.false_ne_true, List.length_take]
  exact if_congr (by omega) rfl rfl

end Items

/-! ### Several keys -/

variable [DecidableEq κ]

/-- **The costs rise**: under each key none is below one before it. -/
def Rising (offers : List (κ × Item κ ℚ)) : Prop :=
  ∀ k, (under k offers).Pairwise fun x y => x.cost ≤ y.cost

section Offers
variable {offers : List (κ × Item κ ℚ)} {limit : Nat} {beam : ℚ}

/-- Up to an offer, the costs of its key rise. -/
theorem Rising.upTo (h : Rising offers) {i : Nat} (hi : i < offers.length) :
    (under offers[i].1 (offers.take i) ++ [offers[i].2]).Pairwise fun x y => x.cost ≤ y.cost :=
  (h offers[i].1).sublist (under_take_sublist offers hi)

/-- What becomes of offers that are limited in number only. -/
def numbered (limit : Nat) (offers : List (κ × Item κ ℚ)) : List (Option Refusal) :=
  offers.mapIdx fun i o =>
    if limit < (under o.1 (offers.take i)).length then some .count else none

/-- **Offers whose costs are not negative** are refused for their number, and never for the beam. -/
theorem fates_of_nonneg (hb : beam ≤ 1) (h : Rising offers) (hnonneg : ∀ o ∈ offers, 0 ≤ o.2.cost) :
    fates limit beam offers = numbered limit offers := by
  refine List.mapIdx_eq_mapIdx_iff.mpr fun i hi => ?_
  exact fate_of_nonneg hb (h.upTo hi) fun y hy =>
    hnonneg _ (List.mem_of_mem_take (mem_of_mem_under hy))

end Offers

namespace Cell

variable [Ord κ]

/-- **A cell without negative costs** answers, holds and counts as if there were no beam. -/
theorem nBest_of_nonneg (limit : Nat) {beam : ℚ} (hb : beam ≤ 1)
    {offers : List (Hasher × κ × Item κ ℚ)} (h : Rising (offers.map Prod.snd))
    (hnonneg : ∀ o ∈ offers.map Prod.snd, 0 ≤ o.2.cost) :
    let r := ({ policy := .nBest limit beam } : Cell κ ℚ).offerEach offers
    let keyed := offers.map Prod.snd
    r.1 = (numbered limit keyed).map (fun o => .ok o.isNone) ∧
      r.2.entries = (offers.map (·.2.1)).eraseDups.flatMap
        (fun k => (under k keyed).take (limit + 1)) ∧
      r.2.stats = tally (numbered limit keyed) := by
  intro r keyed
  obtain ⟨hanswers, hbeamed⟩ := beamed_offerEach limit beam offers
  have hstats := hbeamed.holds.stats
  rw [outcomes_never] at hstats
  rw [fates_of_nonneg hb h hnonneg] at hanswers hstats
  refine ⟨hanswers, (entries_offerEach rfl rfl offers).trans ?_, hstats⟩
  refine List.flatMap_congr fun k _ => ?_
  have hxs : ∀ y ∈ under k keyed, 0 ≤ y.cost := fun y hy => hnonneg _ (mem_of_mem_under hy)
  rw [hbeamed.entriesFor, heldInBeam, inBeam_of_nonneg hb (h k) hxs]

/-- **What the beam refuses under rising costs.** The beam is a fraction, and under each key the
costs never fall. An offer to an n-best cell with room under its key is refused for the beam exactly
if the first cost of the key is negative and the offer costs at least as much, but less than the
fraction of it. So no offer is refused for the beam if no cost is negative, and any two fractions
give the same answers, entries and counters. But if the first cost is negative and the fraction is
below one, then an offer that costs the same is refused, and one that costs more is retained from
the fraction of the first cost upwards. -/
theorem beam_of_rising {limit : Nat} {beam : ℚ} (hb : (Policy.nBest limit beam).Valid)
    (offers : List (Hasher × κ × Item κ ℚ)) (hrising : Rising (offers.map Prod.snd)) :
    let run := fun (beam : ℚ) offers =>
      ({ policy := .nBest limit beam } : Cell κ ℚ).offerEach offers
    let keyed := offers.map Prod.snd
    (∀ i (hi : i < offers.length),
      let o := offers[i].2
      let before := (run beam (offers.take i)).2
      let after := (run beam (offers.take (i + 1))).2
      let refused := (run beam offers).1[i]? = some (.ok false) ∧
        after.stats = before.stats.refused .beam
      let retained := (run beam offers).1[i]? = some (.ok true) ∧
        after.stats = before.stats.retained false
      (before.entriesFor o.1).length ≤ limit →
        (refused ↔ ∃ first ∈ (under o.1 (keyed.take i)).head?,
          first.cost < 0 ∧ o.2.cost ∈ Set.Ico first.cost (beam * first.cost)) ∧
        ∀ first ∈ (under o.1 (keyed.take i)).head?, first.cost < 0 → beam < 1 →
          (o.2.cost = first.cost → refused) ∧ (beam * first.cost ≤ o.2.cost → retained)) ∧
    ((∀ o ∈ keyed, 0 ≤ o.2.cost) → (run beam offers).2.stats.beam = 0 ∧
      ∀ beam' : ℚ, (Policy.nBest limit beam').Valid →
        (run beam' offers).1 = (run beam offers).1 ∧
        (run beam' offers).2.entries = (run beam offers).2.entries ∧
        (run beam' offers).2.stats = (run beam offers).2.stats) := by
  intro run keyed
  have hle : ∀ beam : ℚ, (Policy.nBest limit beam).Valid → beam ≤ 1 := fun beam hb =>
    (hb beam rfl).2
  refine ⟨fun i hi => ?_, fun hnonneg => ?_⟩
  · intro o before after refused retained hroom
    have hi' : i < keyed.length := by rwa [List.length_map]
    have ho : keyed[i] = o := List.getElem_map _
    have hcosts := hrising.upTo hi'
    rw [ho] at hcosts
    obtain ⟨hrefused, hretained⟩ := nBest_offer_of_room limit beam offers hi hroom
    have hiff : refused ↔ belowBeam beam (under o.1 (keyed.take i)) o.2 = true := by
      refine ⟨fun h => ?_, hrefused⟩
      by_contra hn
      have h' := h.1.symm.trans (hretained (Bool.not_eq_true _ ▸ hn)).1
      cases h'
    have hband := belowBeam_iff (hle beam hb) hcosts
    refine ⟨hiff.trans hband, fun first hfirst hneg hbeam =>
      ⟨fun heq => hrefused (hband.mpr ⟨first, hfirst, hneg, ?_⟩), fun hge => hretained ?_⟩⟩
    · rw [heq]
      exact ⟨le_rfl, by nlinarith⟩
    · rw [← Bool.not_eq_true, hband]
      rintro ⟨first', hfirst', -, -, hlt⟩
      rw [Option.mem_unique hfirst' hfirst] at hlt
      exact absurd hlt (not_lt.mpr hge)
  · have hrun := fun (beam : ℚ) hb => nBest_of_nonneg limit (hle beam hb) hrising hnonneg
    obtain ⟨hanswers, hentries, hstats⟩ := hrun beam hb
    refine ⟨?_, fun beam' hb' => ?_⟩
    · rw [hstats]
      refine List.count_eq_zero.mpr fun hmem => ?_
      obtain ⟨i, hi, h⟩ := List.mem_mapIdx.mp hmem
      split at h <;> cases h
    · obtain ⟨hanswers', hentries', hstats'⟩ := hrun beam' hb'
      exact ⟨hanswers'.trans hanswers.symm, hentries'.trans hentries.symm,
        hstats'.trans hstats.symm⟩

end Cell

/-- Offers under one key whose costs rise and are negative. -/
def Forest.priced : List (Hasher × Nat × Item Nat ℚ) :=
  [({ table }, 0, ⟨once, -4, 0, 0⟩), ({ table }, 0, ⟨twice, -4, 0, 0⟩),
    ({ table }, 0, ⟨raised, -3, 0, 0⟩), ({ table }, 0, ⟨paired, -1, 0, 0⟩)]

open Forest in
/-- The second offer costs the same as the first and is refused, the last costs more and is
retained. -/
theorem Cell.beam_of_rising_priced :
    let r := ({ policy := .nBest 2 (1 / 2) } : Cell Nat ℚ).offerEach priced
    r.1[1]? = some (.ok false) ∧ r.1[3]? = some (.ok true) := by
  intro r
  have hb : (Policy.nBest 2 (1 / 2 : ℚ)).Valid := by
    rintro _ ⟨⟩
    norm_num
  have hcosts : (priced.map Prod.snd).Pairwise fun o o' => o.2.cost ≤ o'.2.cost := by decide
  have hrising : Rising (priced.map Prod.snd) := fun k =>
    List.pairwise_map.mpr (hcosts.sublist List.filter_sublist)
  obtain ⟨h, -⟩ := beam_of_rising hb priced hrising
  obtain ⟨-, h1⟩ := h 1 (by decide) (by decide)
  obtain ⟨-, h3⟩ := h 3 (by decide) (by decide +kernel)
  refine ⟨((h1 ⟨once, -4, 0, 0⟩ rfl (by norm_num) (by norm_num)).1 rfl).1,
    ((h3 ⟨once, -4, 0, 0⟩ rfl (by norm_num) (by norm_num)).2 ?_).1⟩
  show (1 / 2 : ℚ) * -4 ≤ -1
  norm_num

end CategorialChart
