import CategorialChart.Proofs.Cell.Beam
import CategorialChart.Proofs.Cell.Best

/-! # Offers that come best first

The policies `oneBest` and `oneBestOrdered` keep the first item that is offered under a key, and
`oneBestCky` one with the highest score. They agree as long as no item scores above the first of its
key (`BestFirst`), and part with the first offer that does: this one replaces the item held, or is
refused. Scores may tie or be undefined, nothing is asked of their comparison.

* `bestFirst_concat`: offers stay best first if one more is not above the first of its key.
* `firstHeld_oneBestCky`: a cell in which the highest score wins answers as if the first offer won,
  exactly as long as the offers come best first.
* `head?_entriesFor`: the first item of a key stays the first that is held, where no item is
  replaced and no offer fails.
* `oneBest_eq_oneBestCky_iff`: two runs on the same offers, and what other policies make of them. -/

namespace CategorialChart

variable {κ σ : Type} [DecidableEq κ] [LT σ]

/-- **The offers come best first**: none scores above the first offer of its key. -/
def BestFirst (offers : List (κ × Item κ σ)) : Prop :=
  ∀ k, ∀ first ∈ (under k offers).head?, ∀ x ∈ (under k offers).tail,
    ¬ first.insideScore < x.insideScore

theorem bestFirst_concat {offers : List (κ × Item κ σ)} {o : κ × Item κ σ} :
    BestFirst (offers ++ [o]) ↔
      BestFirst offers ∧ ∀ first ∈ (under o.1 offers).head?,
        ¬ first.insideScore < o.2.insideScore := by
  -- the new offer changes what is said of its own key alone
  have hkey : ∀ k, (∀ first ∈ (under k (offers ++ [o])).head?,
        ∀ x ∈ (under k (offers ++ [o])).tail, ¬ first.insideScore < x.insideScore) ↔
      (∀ first ∈ (under k offers).head?, ∀ x ∈ (under k offers).tail,
        ¬ first.insideScore < x.insideScore) ∧
        (o.1 = k → ∀ first ∈ (under k offers).head?, ¬ first.insideScore < o.2.insideScore) := by
    intro k
    rw [under_concat]
    by_cases hk : o.1 = k
    · rcases under k offers with _ | ⟨first, rest⟩
      · simp [hk]
      · simp [hk, or_imp, forall_and]
    · simp [hk]
  unfold BestFirst
  rw [forall_congr' hkey, forall_and]
  exact and_congr_right fun _ => forall_eq'

theorem BestFirst.take {offers : List (κ × Item κ σ)} (h : BestFirst offers) (n : Nat) :
    BestFirst (offers.take n) := by
  rw [← List.take_append_drop n offers] at h
  generalize offers.drop n = later at h
  induction later using List.reverseRecOn with
  | nil => rwa [List.append_nil] at h
  | append_singleton later o ih =>
    rw [← List.append_assoc] at h
    exact ih (bestFirst_concat.mp h).1

namespace Cell

variable [DecidableLT σ] [Mul σ] [Ord κ]

/-- No offer fails where no fingerprint is taken. -/
theorem offerEach_isOk (policy : Policy σ) (hp : policy.has .structuralDedup = false)
    (offers : List (Hasher × κ × Item κ σ)) :
    ∃ bs : List Bool, (({ policy := policy } : Cell κ σ).offerEach offers).1 = bs.map .ok := by
  induction offers using List.reverseRecOn with
  | nil => exact ⟨[], rfl⟩
  | append_singleton offers o ih =>
    obtain ⟨bs, hbs⟩ := ih
    have hpolicy := policy_offerEach ({ policy := policy } : Cell κ σ) offers
    obtain ⟨b, hb⟩ := answer_isOk (by rw [hpolicy, hp]) (o.1.fingerprint o.2.2.derivation).1 o.2.1
      o.2.2
    exact ⟨bs ++ [b], by rw [offerEach_concat, hbs, hb, List.map_append, List.map_singleton]⟩

/-- **The first item of a key** is the first that is held under it, where no item is replaced and no
offer fails. -/
theorem head?_entriesFor {policy : Policy σ} (hkeyed : policy.has .keyed = true)
    (hordered : policy.has .orderedKeys = false) (hreplaces : policy.has .replaces = false)
    {offers : List (Hasher × κ × Item κ σ)}
    (hok : ∀ r ∈ (({ policy := policy } : Cell κ σ).offerEach offers).1, ∃ b, r = .ok b) (k : κ) :
    ((({ policy := policy } : Cell κ σ).offerEach offers).2.entriesFor k).head? =
      (under k (offers.map Prod.snd)).head? := by
  induction offers using List.reverseRecOn with
  | nil => rfl
  | append_singleton offers o ih =>
    have hc := (wellKept_empty policy : WellKept ({ policy := policy } : Cell κ σ)).offerEach offers
    have hkeys := keys_offerEach hkeyed hordered offers
    have hpolicy := policy_offerEach ({ policy := policy } : Cell κ σ) offers
    rw [offerEach_concat] at hok ⊢
    have ih := ih fun r hr => hok r (List.mem_append_left _ hr)
    have hlast := hok _ (List.mem_append_right _ (List.mem_singleton_self _))
    rw [List.map_append, List.map_singleton, under_concat, List.head?_append, ← ih]
    rcases hc.answer_entries (o.1.fingerprint o.2.2.derivation).1 o.2.1 o.2.2 with
      ⟨why, -, hkey, ha⟩ | ⟨e, ha⟩ | ⟨g, -, -, -, ha, -⟩ | ⟨old, -, -, hp, -⟩
    · -- an offer that is refused is not the first of its key
      rw [ha]
      by_cases hk : o.2.1 = k
      · rw [hkeys, List.mem_eraseDups, hk] at hkey
        have hkey : k ∈ (offers.map Prod.snd).map Prod.fst := by rwa [List.map_map]
        have hne : under k (offers.map Prod.snd) ≠ [] :=
          mt under_eq_nil.mp (not_not_intro hkey)
        obtain ⟨first, rest, hunder⟩ := List.exists_cons_of_ne_nil hne
        rw [hunder, List.head?_cons] at ih
        rw [ih]
        exact ih
      · rw [if_neg hk, List.head?_nil, Option.or_none]
        rfl
    · obtain ⟨b, hb⟩ := hlast
      rw [ha] at hb
      cases hb
    · rw [ha, entriesFor_keep hc.keyed, List.head?_append, Policy.groupKey, hpolicy, if_pos hkeyed]
    · obtain rfl : policy = .oneBestCky := hpolicy.symm.trans hp
      cases hreplaces

variable [Std.TransOrd κ] [Std.LawfulEqOrd κ]

section HighestWins
variable {c : Cell κ σ} {offers : List (κ × Item κ σ)} {key : κ} {first item : Item κ σ}

/-- An offer that is not above the first of its key is answered as if the first offer won. -/
theorem FirstHeld.answer_of_notAbove (hc : c.FirstHeld .oneBestCky offers)
    (h : ∀ first ∈ (under key offers).head?, ¬ first.insideScore < item.insideScore)
    (f : Except TermError Fingerprint) :
    (c.answer f key item).1 = .ok (decide (key ∉ offers.map Prod.fst)) ∧
      (c.answer f key item).2.FirstHeld .oneBestCky (offers ++ [(key, item)]) := by
  refine hc.answer rfl (fun hne => ?_) nofun
  rw [hc.entriesFor] at hne ⊢
  obtain ⟨first, rest, hunder⟩ : ∃ first rest, under key offers = first :: rest :=
    List.exists_cons_of_ne_nil fun hnil => hne (by rw [hnil]; rfl)
  rw [hunder] at h ⊢
  exact ⟨.notBetter, if_neg (h first rfl)⟩

omit [Std.TransOrd κ] [Std.LawfulEqOrd κ] in
/-- An offer above the first of its key is retained, though its key is not new. -/
theorem FirstHeld.answer_of_above (hc : c.FirstHeld .oneBestCky offers)
    (hfirst : first ∈ (under key offers).head?) (hlt : first.insideScore < item.insideScore)
    (f : Except TermError Fingerprint) :
    (c.answer f key item).1 = .ok true ∧ key ∈ offers.map Prod.fst := by
  obtain ⟨rest, hunder⟩ := List.head?_eq_some_iff.mp hfirst
  have hheld : c.entriesFor key = [first] := by
    rw [hc.entriesFor, hunder]
    rfl
  refine ⟨?_, ?_⟩
  · rw [answer_oneBestCky hc.policy_eq, hheld]
    dsimp only
    rw [if_pos hlt]
  · by_contra hnew
    rw [under_eq_nil.mpr hnew] at hunder
    cases hunder

end HighestWins

/-- **As long as the offers come best first**, a cell in which the highest score wins answers as if
the first offer won, and no longer. Until then it holds the first item of each key. -/
theorem firstHeld_oneBestCky (offers : List (Hasher × κ × Item κ σ)) :
    ((({ policy := .oneBestCky } : Cell κ σ).offerEach offers).1 =
        (firsts (offers.map (·.2.1))).map .ok ↔ BestFirst (offers.map Prod.snd)) ∧
      (BestFirst (offers.map Prod.snd) →
        (({ policy := .oneBestCky } : Cell κ σ).offerEach offers).2.FirstHeld .oneBestCky
          (offers.map Prod.snd)) := by
  induction offers using List.reverseRecOn with
  | nil => exact ⟨iff_of_true rfl nofun, fun _ => ⟨rfl, listed_empty _, fun _ => rfl⟩⟩
  | append_singleton offers o ih =>
    obtain ⟨hanswers, hheld⟩ := ih
    have hkeys : (offers.map Prod.snd).map Prod.fst = offers.map (·.2.1) := List.map_map
    rw [offerEach_concat, List.map_append, List.map_append, List.map_singleton, List.map_singleton,
      firsts_concat, List.map_append, List.map_singleton, bestFirst_concat, ← hkeys]
    refine ⟨?_, fun ⟨hbest, h⟩ => ((hheld hbest).answer_of_notAbove h _).2⟩
    -- the answers part where the offers cease to come best first
    rw [List.append_singleton_inj, hkeys, hanswers, ← hkeys]
    refine and_congr_right fun hbest => ⟨fun h first hfirst hlt => ?_, fun h => ?_⟩
    · obtain ⟨htrue, hkey⟩ := (hheld hbest).answer_of_above hfirst hlt
        (o.1.fingerprint o.2.2.derivation).1
      rw [htrue, decide_eq_false (not_not_intro hkey)] at h
      cases h
    · exact ((hheld hbest).answer_of_notAbove h _).1

/-- **Best first is what the one-best policies need**, and no less. Run a cell that keeps the first
item of a key, and one in which the highest score wins, on the same offers. No offer fails, and the
two cells answer alike exactly if no item scores above the first of its key. The former holds the
first item of each key after any number of offers, and so does the latter in this case. It is the
first of the items that an n-best cell holds under the key, also if this cell compares fingerprints
and none of its offers has failed. -/
theorem oneBest_eq_oneBestCky_iff {policy : Policy σ}
    (hp : policy = .oneBest ∨ policy = .oneBestOrdered) (offers : List (Hasher × κ × Item κ σ)) :
    let run := fun (p : Policy σ) offers => ({ policy := p } : Cell κ σ).offerEach offers
    let keyed := offers.map Prod.snd
    (∃ bs bs' : List Bool, (run policy offers).1 = bs.map .ok ∧
      (run .oneBestCky offers).1 = bs'.map .ok ∧ (bs = bs' ↔ BestFirst keyed)) ∧
    ∀ n k,
      let before := offers.take n
      let first := (under k (keyed.take n)).head?
      (run policy before).2.entriesFor k = first.toList ∧
        (BestFirst keyed → (run .oneBestCky before).2.entriesFor k = first.toList) ∧
        ∀ limit beam, ((run (.nBest limit beam) before).2.entriesFor k).head? = first ∧
          ((∀ r ∈ (run (.nBestHashed limit beam) before).1, ∃ b, r = .ok b) →
            ((run (.nBestHashed limit beam) before).2.entriesFor k).head? = first) := by
  intro run keyed
  have hkeyed : policy.has .keyed = true := by rcases hp with rfl | rfl <;> rfl
  have hplain : policy.has .structuralDedup = false := by rcases hp with rfl | rfl <;> rfl
  have hfirst := fun offers => firstHeld_of_refuses (κ := κ) hkeyed
    (fun _ => Policy.judge_occupied hp) offers fun h => absurd h (by rw [hplain]; nofun)
  refine ⟨?_, fun n k => ?_⟩
  · obtain ⟨bs, hbs⟩ := offerEach_isOk .oneBestCky rfl offers
    have hanswers := (firstHeld_oneBestCky offers).1
    rw [hbs, (List.map_injective_iff.mpr fun _ _ => Except.ok.inj).eq_iff] at hanswers
    exact ⟨_, bs, (hfirst offers).1, hbs, eq_comm.trans hanswers⟩
  · intro before first
    have hbefore : before.map Prod.snd = keyed.take n := List.map_take
    have htake : ∀ xs : List (Item κ σ), xs.take 1 = xs.head?.toList := by
      rintro (_ | ⟨x, xs⟩) <;> rfl
    refine ⟨?_, fun hbest => ?_, fun limit beam => ⟨?_, fun hok => ?_⟩⟩
    · rw [(hfirst before).2.entriesFor, hbefore, htake]
    · have hheld := (firstHeld_oneBestCky before).2 (hbefore ▸ hbest.take n)
      rw [hheld.entriesFor, hbefore, htake]
    · obtain ⟨bs, hbs⟩ := offerEach_isOk (.nBest limit beam) rfl before
      refine (head?_entriesFor rfl rfl rfl (fun r hr => ?_) k).trans (by rw [hbefore])
      rw [hbs, List.mem_map] at hr
      obtain ⟨b, -, rfl⟩ := hr
      exact ⟨b, rfl⟩
    · exact (head?_entriesFor rfl rfl rfl hok k).trans (by rw [hbefore])

end Cell

open Forest in
/-- All scores are level here. The two policies answer alike, so the offers come best first, and the
two cells hold the same. -/
theorem Cell.oneBest_eq_oneBestCky_iff_contested :
    BestFirst (contested.map Prod.snd) ∧
      (({ policy := .oneBestCky } : Cell Nat Nat).offerEach contested).2.entriesFor 1 =
        [item once 3] := by
  have hp : (.oneBest : Policy Nat) = .oneBest ∨ (.oneBest : Policy Nat) = .oneBestOrdered :=
    Or.inl rfl
  obtain ⟨⟨bs, bs', h1, h2, h3⟩, h4⟩ := oneBest_eq_oneBestCky_iff hp contested
  have halike : bs = bs' := by
    have h : bs.map Except.ok = bs'.map (Except.ok (ε := TermError)) :=
      h1.symm.trans (Eq.trans rfl h2)
    exact List.map_injective_iff.mpr (fun _ _ => Except.ok.inj) h
  have hbest := h3.mp halike
  exact ⟨hbest, ((h4 3 1).2.1 hbest).trans rfl⟩

end CategorialChart
