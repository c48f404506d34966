import CategorialChart.Proofs.Cell.Views
import CategorialChart.Proofs.Score.Order

/-! # Cells in which the highest score wins

A cell with the policy `oneBestCky` holds one item for each key: the first one offered under it if
the score of this one is undefined, since nothing compares above it, and otherwise the earliest of
those whose score is highest (`champion`). An offer is retained if its score is above that of the
item held, which it then replaces.

* `champion_concat`: the champion after one more item is the old one or the new one.
* `champion_perm`: the champions of the same items in another order are level.
* `HoldsBest.answer`: an offer keeps the champions in the cell.
* `oneBestCky_entriesFor`: what the cell holds after any offers, what it has answered and
  counted. -/

namespace CategorialChart

variable {κ σ : Type}

section Champion
variable [LT σ] [DecidableLT σ] {undefined : σ → Bool} {xs : List (Item κ σ)} {x y : Item κ σ}

/-- The score of `x` is defined, and none of the scores of `xs` is above it. -/
def leads (undefined : σ → Bool) (xs : List (Item κ σ)) (x : Item κ σ) : Bool :=
  !undefined x.insideScore && xs.all fun y => ¬ x.insideScore < y.insideScore

/-- **The champion** of the items offered under one key: the first if its score is undefined, else
the earliest of those whose score is highest. -/
def champion (undefined : σ → Bool) : List (Item κ σ) → Option (Item κ σ)
  | [] => none
  | first :: rest =>
    if undefined first.insideScore then some first
    else (first :: rest).find? (leads undefined (first :: rest))

theorem leads_iff : leads undefined xs x = true ↔
    undefined x.insideScore = false ∧ ∀ y ∈ xs, ¬ x.insideScore < y.insideScore := by
  simp [leads]

theorem leads_concat : leads undefined (xs ++ [y]) x = true ↔
    leads undefined xs x = true ∧ ¬ x.insideScore < y.insideScore := by
  simp [leads, and_assoc]

/-- An item with a score above that of a leader leads in its place. -/
theorem leads_of_lt (hσ : WeaklyOrdered undefined) (h : leads undefined xs x = true)
    (hlt : x.insideScore < y.insideScore) : leads undefined (xs ++ [y]) y = true := by
  obtain ⟨-, habove⟩ := leads_iff.mp h
  rw [leads_concat, leads_iff]
  exact ⟨⟨(hσ.defined hlt).2, fun z hz hyz => habove z hz (hσ.trans hlt hyz)⟩, hσ.irrefl _⟩

/-- If the first score is defined, some item leads. -/
theorem exists_leads (hσ : WeaklyOrdered undefined) {first : Item κ σ}
    (hfirst : undefined first.insideScore = false) (rest : List (Item κ σ)) :
    ∃ x ∈ first :: rest, leads undefined (first :: rest) x = true := by
  induction rest using List.reverseRecOn with
  | nil =>
    refine ⟨first, List.mem_cons_self, leads_iff.mpr ⟨hfirst, fun y hy => ?_⟩⟩
    rw [List.mem_singleton.mp hy]
    exact hσ.irrefl _
  | append_singleton rest y ih =>
    obtain ⟨x, hx, hleads⟩ := ih
    rw [← List.cons_append]
    by_cases hlt : x.insideScore < y.insideScore
    · exact ⟨y, by simp, leads_of_lt hσ hleads hlt⟩
    · exact ⟨x, List.mem_append_left _ hx, leads_concat.mpr ⟨hleads, hlt⟩⟩

/-- One more item leads if it is above the earliest leader, which otherwise stays the earliest. -/
theorem find?_leads_concat (hσ : WeaklyOrdered undefined)
    (hx : xs.find? (leads undefined xs) = some x) (y : Item κ σ) :
    (xs ++ [y]).find? (leads undefined (xs ++ [y])) =
      some (if x.insideScore < y.insideScore then y else x) := by
  have hleads : leads undefined xs x = true := List.find?_some hx
  rw [List.find?_append]
  by_cases hlt : x.insideScore < y.insideScore
  · have hnone : xs.find? (leads undefined (xs ++ [y])) = none := by
      refine List.find?_eq_none.mpr fun z hz hleads' => ?_
      obtain ⟨hz', hnot⟩ := leads_concat.mp hleads'
      exact hσ.notLt_trans (leads_iff.mp hz').1 ((leads_iff.mp hleads).2 z hz) hnot hlt
    rw [hnone, Option.none_or, if_pos hlt,
      List.find?_cons_of_pos (leads_of_lt hσ hleads hlt)]
  · have hstays : xs.find? (leads undefined (xs ++ [y])) = some x := by
      obtain ⟨-, before, after, he, hnot⟩ := List.find?_eq_some_iff_append.mp hx
      refine List.find?_eq_some_iff_append.mpr
        ⟨leads_concat.mpr ⟨hleads, hlt⟩, before, after, he, fun z hz => ?_⟩
      have hz' := hnot z hz
      rw [Bool.not_eq_true', Bool.eq_false_iff] at hz' ⊢
      exact fun h => hz' (leads_concat.mp h).1
    rw [hstays, Option.some_or, if_neg hlt]

/-- The champion leads, if the first score is defined. -/
theorem champion_leads (hσ : WeaklyOrdered undefined) {first : Item κ σ}
    (hfirst : undefined first.insideScore = false) (rest : List (Item κ σ)) :
    ∃ x ∈ first :: rest, champion undefined (first :: rest) = some x ∧
      leads undefined (first :: rest) x = true := by
  have hfind : ((first :: rest).find? (leads undefined (first :: rest))).isSome = true := by
    rw [List.find?_isSome]
    exact exists_leads hσ hfirst rest
  obtain ⟨x, hx⟩ := Option.isSome_iff_exists.mp hfind
  refine ⟨x, List.mem_of_find?_eq_some hx, ?_, List.find?_some hx⟩
  rw [champion, hfirst, if_neg Bool.false_ne_true, hx]

/-- **The champion after one more item** is the old one, unless the new one is above it. -/
theorem champion_concat (hσ : WeaklyOrdered undefined) (xs : List (Item κ σ)) (y : Item κ σ) :
    champion undefined (xs ++ [y]) =
      match champion undefined xs with
      | none => some y
      | some x => some (if x.insideScore < y.insideScore then y else x) := by
  rcases xs with _ | ⟨first, rest⟩
  · rw [List.nil_append, champion, champion]
    split
    · rfl
    · next hy =>
      have hleads : leads undefined [y] y = true :=
        leads_iff.mpr ⟨Bool.not_eq_true _ ▸ hy, by simp [hσ.irrefl]⟩
      rw [List.find?_cons_of_pos hleads]
  · rw [List.cons_append, champion, champion]
    by_cases hfirst : undefined first.insideScore = true
    · have hlt : ¬ first.insideScore < y.insideScore := fun h => by
        rw [(hσ.defined h).1] at hfirst
        cases hfirst
      simp only [hfirst, if_true, if_neg hlt]
    · obtain ⟨x, -, hx, -⟩ := champion_leads hσ (Bool.not_eq_true _ ▸ hfirst) rest
      rw [champion, if_neg hfirst] at hx
      rw [if_neg hfirst, if_neg hfirst, hx]
      exact find?_leads_concat hσ hx y

/-- There is a champion as soon as there is an item. -/
theorem champion_eq_none (hσ : WeaklyOrdered undefined) :
    champion undefined xs = none ↔ xs = [] := by
  induction xs using List.reverseRecOn with
  | nil => exact ⟨fun _ => rfl, fun _ => rfl⟩
  | append_singleton xs y _ =>
    rw [champion_concat hσ]
    cases champion undefined xs <;> simp

/-- **The champions of the same items in another order are level**, if all scores are defined. -/
theorem champion_perm (hσ : WeaklyOrdered undefined) {ys : List (Item κ σ)} (h : xs.Perm ys)
    (hdefined : ∀ x ∈ xs, undefined x.insideScore = false) (hx : champion undefined xs = some x)
    (hy : champion undefined ys = some y) : Level x.insideScore y.insideScore := by
  have hbest : ∀ {zs : List (Item κ σ)} {z : Item κ σ}, zs.Perm xs →
      champion undefined zs = some z → z ∈ zs ∧ ∀ w ∈ zs, ¬ z.insideScore < w.insideScore := by
    intro zs z hzs hz
    rcases zs with _ | ⟨first, rest⟩
    · cases hz
    obtain ⟨z', hmem, hz', hleads⟩ :=
      champion_leads hσ (hdefined first (hzs.subset List.mem_cons_self)) rest
    rw [hz] at hz'
    cases hz'
    exact ⟨hmem, (leads_iff.mp hleads).2⟩
  obtain ⟨hxmem, hxbest⟩ := hbest (List.Perm.refl xs) hx
  obtain ⟨hymem, hybest⟩ := hbest h.symm hy
  exact ⟨hxbest y (h.symm.subset hymem), hybest x (h.subset hxmem)⟩

end Champion

namespace Cell

variable [DecidableEq κ] [LT σ] [DecidableLT σ] {undefined : σ → Bool} {c : Cell κ σ}
  {offers : List (κ × Item κ σ)}

/-- **The invariant**: the cell holds the champion of each key. -/
structure HoldsBest (undefined : σ → Bool) (c : Cell κ σ) (offers : List (κ × Item κ σ)) :
    Prop where
  policy : c.policy = .oneBestCky
  keyed : c.Keyed
  items : ∀ k, (c.group k).items = (champion undefined (under k offers)).toList

theorem HoldsBest.entriesFor (hc : c.HoldsBest undefined offers) (k : κ) :
    c.entriesFor k = (champion undefined (under k offers)).toList := by
  rw [entriesFor_eq hc.keyed, hc.items]

/-- Under a key one item is held as soon as there was an offer, and none before. -/
theorem HoldsBest.entriesFor_cases (hσ : WeaklyOrdered undefined)
    (hc : c.HoldsBest undefined offers) (k : κ) :
    k ∉ offers.map Prod.fst ∧ c.entriesFor k = [] ∨
      k ∈ offers.map Prod.fst ∧ ∃ x, c.entriesFor k = [x] := by
  have hnone : champion undefined (under k offers) = none ↔ k ∉ offers.map Prod.fst :=
    (champion_eq_none hσ).trans under_eq_nil
  rw [hc.entriesFor]
  rcases hchampion : champion undefined (under k offers) with _ | x
  · exact Or.inl ⟨hnone.mp hchampion, rfl⟩
  · refine Or.inr ⟨not_not.mp (mt hnone.mpr ?_), x, rfl⟩
    rw [hchampion]
    exact Option.some_ne_none x

theorem HoldsBest.length_entriesFor (hσ : WeaklyOrdered undefined)
    (hc : c.HoldsBest undefined offers) (k : κ) :
    (c.entriesFor k).length = if k ∈ offers.map Prod.fst then 1 else 0 := by
  rcases hc.entriesFor_cases hσ k with ⟨hk, h⟩ | ⟨hk, x, h⟩
  · rw [h, if_neg hk, List.length_nil]
  · rw [h, if_pos hk, List.length_singleton]

/-- **The same offers in another order** leave as many items under a key, of level scores. -/
theorem HoldsBest.level (hσ : WeaklyOrdered undefined) {c' : Cell κ σ}
    {offers' : List (κ × Item κ σ)} (hc' : c'.HoldsBest undefined offers')
    (hc : c.HoldsBest undefined offers) (hperm : offers'.Perm offers)
    (hdefined : ∀ o ∈ offers, undefined o.2.insideScore = false) (k : κ) :
    (c'.entriesFor k).length = (c.entriesFor k).length ∧
      ∀ x ∈ c'.entriesFor k, ∀ y ∈ c.entriesFor k, Level x.insideScore y.insideScore := by
  have hunder : (under k offers').Perm (under k offers) := (hperm.filter _).map Prod.snd
  have hdefined' : ∀ x ∈ under k offers', undefined x.insideScore = false := fun x hx =>
    hdefined _ (mem_of_mem_under (hunder.subset hx))
  refine ⟨?_, fun x hx y hy => ?_⟩
  · rw [hc'.length_entriesFor hσ, hc.length_entriesFor hσ]
    exact if_congr (hperm.map Prod.fst).mem_iff rfl rfl
  · rw [hc'.entriesFor, Option.mem_toList] at hx
    rw [hc.entriesFor, Option.mem_toList] at hy
    exact champion_perm hσ hunder hdefined' hx hy

variable [Ord κ] [Mul σ]

/-- **An offer to a cell in which the highest score wins**: it is kept if the key holds no item, and
otherwise replaces the item or is refused. -/
theorem answer_oneBestCky (hp : c.policy = .oneBestCky) (f : Except TermError Fingerprint) (key : κ)
    (item : Item κ σ) :
    c.answer f key item =
      match c.entriesFor key with
      | [] => (.ok true, c.keep key item none)
      | held :: _ =>
        if held.insideScore < item.insideScore then (.ok true, c.replace key item)
        else (.ok false, c.refuse .notBetter) := by
  unfold answer
  rw [hp]
  rcases c.entriesFor key with _ | ⟨held, rest⟩
  · rfl
  · by_cases hlt : held.insideScore < item.insideScore <;> simp [Policy.judge, hlt]

/-- The group of the key holds the champion of its items and the new one, and no other group
changes. -/
theorem HoldsBest.group_answer (hσ : WeaklyOrdered undefined) (hc : c.HoldsBest undefined offers)
    (f : Except TermError Fingerprint) (key : κ) (item : Item κ σ) (k : κ) :
    ((c.answer f key item).2.group k).items =
      if k = key then (champion undefined (under key offers ++ [item])).toList
      else (c.group k).items := by
  have hkeyed : c.policy.has .keyed = true := by rw [hc.policy]; rfl
  have hheld := hc.entriesFor key
  rw [answer_oneBestCky hc.policy, champion_concat hσ, hheld]
  rcases hchampion : champion undefined (under key offers) with _ | held <;>
    rw [hchampion] at hheld <;> dsimp only [Option.toList]
  · rw [entriesFor_eq hc.keyed] at hheld
    rw [group_keep hc.keyed hkeyed]
    split
    · rw [Group.push, hheld]
      rfl
    · rfl
  · by_cases hlt : held.insideScore < item.insideScore
    · rw [if_pos hlt, if_pos hlt,
        group_replace hc.keyed (mem_keys_of_entriesFor (by rw [hheld]; simp))]
      split <;> rfl
    · rw [if_neg hlt, if_neg hlt, group_refuse]
      split
      · next hk => rw [hk, ← entriesFor_eq hc.keyed, hheld]; rfl
      · rfl

/-- **An answer keeps the champions.** -/
theorem HoldsBest.answer (hσ : WeaklyOrdered undefined) (hc : c.HoldsBest undefined offers)
    (f : Except TermError Fingerprint) (key : κ) (item : Item κ σ) :
    (c.answer f key item).2.HoldsBest undefined (offers ++ [(key, item)]) where
  policy := (policy_answer c f key item).trans hc.policy
  keyed := hc.keyed.answer (by rw [hc.policy]; rfl) f key item
  items k := by
    rw [hc.group_answer hσ, under_concat]
    by_cases hk : k = key
    · rw [if_pos hk, if_pos hk.symm, hk]
    · rw [if_neg hk, if_neg (Ne.symm hk), List.append_nil, hc.items]

/-- **An offer is answered** with `true` if it is above what is held, and has replaced it if there
was anything. -/
theorem HoldsBest.answered (hσ : WeaklyOrdered undefined) (hc : c.HoldsBest undefined offers)
    (f : Except TermError Fingerprint) (key : κ) (item : Item κ σ) :
    (c.answer f key item).1 =
        .ok (decide (∀ x ∈ c.entriesFor key, x.insideScore < item.insideScore)) ∧
      (c.answer f key item).2.stats =
        if decide (∀ x ∈ c.entriesFor key, x.insideScore < item.insideScore) then
          c.stats.retained (!(c.entriesFor key).isEmpty)
        else c.stats.refused .notBetter := by
  have ha := answer_oneBestCky hc.policy f key item
  rcases hc.entriesFor_cases hσ key with ⟨-, h⟩ | ⟨-, x, h⟩ <;> rw [h] at ha ⊢ <;> rw [ha]
  · simp [keep]
  · by_cases hlt : x.insideScore < item.insideScore <;> simp [hlt, replace, refuse]

/-! ### Offers in a row -/

theorem holdsBest_offerEach (hσ : WeaklyOrdered undefined) (offers : List (Hasher × κ × Item κ σ)) :
    (({ policy := .oneBestCky } : Cell κ σ).offerEach offers).2.HoldsBest undefined
      (offers.map Prod.snd) := by
  induction offers using List.reverseRecOn with
  | nil => exact ⟨rfl, keyed_empty _, fun _ => rfl⟩
  | append_singleton offers o ih =>
    rw [offerEach_concat, List.map_append, List.map_singleton]
    exact ih.answer hσ _ o.2.1 o.2.2

/-- As many items as different keys. -/
theorem size_oneBestCky (hσ : WeaklyOrdered undefined) (offers : List (Hasher × κ × Item κ σ)) :
    (({ policy := .oneBestCky } : Cell κ σ).offerEach offers).2.size =
      (offers.map (·.2.1)).toFinset.card := by
  have hkeys : (offers.map Prod.snd).map Prod.fst = offers.map (·.2.1) := List.map_map
  have hone : ∀ k ∈ (offers.map (·.2.1)).toFinset,
      ((({ policy := .oneBestCky } : Cell κ σ).offerEach offers).2.entriesFor k).length = 1 := by
    intro k hk
    rw [(holdsBest_offerEach hσ offers).length_entriesFor hσ, hkeys,
      if_pos (List.mem_toFinset.mp hk)]
  rw [size_offerEach, Policy.keys_grouped rfl, Finset.sum_congr rfl hone, Finset.card_eq_sum_ones]

/-- **The highest score wins** where the policy says so. Under each key the cell holds the champion
of the items offered under it, and one as soon as there is an offer. An offer is answered with
`true` exactly if its score is above that of the item then held; the first offer of a key finds none
held, and any later one that is retained is counted as a replacement. So what was retained and not
replaced are as many items as different keys were offered. The same offers in another order leave
items of level scores, if all scores are defined. -/
theorem oneBestCky_entriesFor (hσ : WeaklyOrdered undefined)
    (offers : List (Hasher × κ × Item κ σ)) :
    let cell := fun offers : List (Hasher × κ × Item κ σ) =>
      (({ policy := .oneBestCky } : Cell κ σ).offerEach offers).2
    let results := (({ policy := .oneBestCky } : Cell κ σ).offerEach offers).1
    let keyed := offers.map Prod.snd
    (∀ k, (cell offers).entriesFor k = (champion undefined (under k keyed)).toList ∧
      (k ∈ keyed.map Prod.fst → ∃ x, (cell offers).entriesFor k = [x])) ∧
    (∀ i (hi : i < offers.length),
      let before := cell (offers.take i)
      let o := offers[i].2
      let held := before.entriesFor o.1
      let above := decide (∀ x ∈ held, x.insideScore < o.2.insideScore)
      (held = [] ↔ o.1 ∉ (keyed.take i).map Prod.fst) ∧ results[i]? = some (.ok above) ∧
        (cell (offers.take (i + 1))).stats =
          if above then before.stats.retained (!held.isEmpty)
          else before.stats.refused .notBetter) ∧
    (cell offers).stats.admitted =
      (cell offers).stats.replaced + (keyed.map Prod.fst).toFinset.card ∧
    ∀ offers' : List (Hasher × κ × Item κ σ), (offers'.map Prod.snd).Perm keyed →
      (∀ o ∈ keyed, undefined o.2.insideScore = false) →
        ∀ k, ((cell offers').entriesFor k).length = ((cell offers).entriesFor k).length ∧
          ∀ x ∈ (cell offers').entriesFor k, ∀ y ∈ (cell offers).entriesFor k,
            Level x.insideScore y.insideScore := by
  intro cell results keyed
  have hbest : ∀ offers, (cell offers).HoldsBest undefined (offers.map Prod.snd) := fun offers =>
    holdsBest_offerEach hσ offers
  refine ⟨fun k => ⟨(hbest offers).entriesFor k, fun hk => ?_⟩, fun i hi => ?_, ?_,
    fun offers' hperm hdefined k => ?_⟩
  · rcases (hbest offers).entriesFor_cases hσ k with ⟨hk', -⟩ | ⟨-, h⟩
    · exact absurd hk hk'
    · exact h
  · intro before o held above
    have hb : before.HoldsBest undefined (keyed.take i) := by
      rw [← List.map_take]
      exact hbest _
    obtain ⟨h1, h2⟩ := offerEach_at ({ policy := .oneBestCky } : Cell κ σ) offers hi
    obtain ⟨h3, h4⟩ := hb.answered hσ (offers[i].1.fingerprint o.2.derivation).1 o.1 o.2
    refine ⟨?_, h1.trans (congrArg some h3), (congrArg Cell.stats h2).trans h4⟩
    rcases hb.entriesFor_cases hσ o.1 with ⟨hk, h⟩ | ⟨hk, x, h⟩
    · exact iff_of_true h hk
    · exact iff_of_false (by simp [held, h]) (not_not_intro hk)
  · have hkeys : keyed.map Prod.fst = offers.map (·.2.1) := List.map_map
    have hheld := (accounted_offers offers (accounted_empty .oneBestCky)).balanced.held
    rw [size_oneBestCky hσ, ← hkeys, Nat.add_comm] at hheld
    exact hheld.symm
  · exact (hbest offers').level hσ (hbest offers) hperm hdefined k

end Cell

/-- An item with an inside score. -/
def Forest.scored (d : Derivation) (score : Binary64) : Item Nat Binary64 := ⟨d, 0, score, 0⟩

/-- Offers under two keys. The second of the first key and the first of the second are undefined. -/
def Forest.rated : List (Hasher × Nat × Item Nat Binary64) :=
  [({ table }, 0, scored once 1), ({ table }, 0, scored raised ⟨0x7FF8000000000000⟩),
    ({ table }, 1, scored once ⟨0x7FF8000000000000⟩), ({ table }, 0, scored twice 3),
    ({ table }, 1, scored raised 9), ({ table }, 0, scored paired 3)]

open Forest in
/-- The earlier of two level scores is held, and an undefined one that came first. -/
theorem Cell.oneBestCky_entriesFor_rated :
    let c := (({ policy := .oneBestCky } : Cell Nat Binary64).offerEach rated).2
    c.entriesFor 0 = [scored twice 3] ∧ c.entriesFor 1 = [scored once ⟨0x7FF8000000000000⟩] ∧
      c.stats.admitted = c.stats.replaced + 2 := by
  intro c
  obtain ⟨h1, -, h3, -⟩ := oneBestCky_entriesFor Binary64.weaklyOrdered rated
  exact ⟨(h1 0).1.trans rfl, (h1 1).1.trans rfl, h3⟩

end CategorialChart
