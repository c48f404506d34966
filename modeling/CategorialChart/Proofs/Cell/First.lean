import CategorialChart.Proofs.Cell.Failure
import CategorialChart.Proofs.Cell.Listing
import CategorialChart.Proofs.Cell.Survivors

/-! # Cells in which the first offer wins

The policies `oneBest` and `oneBestOrdered`, and the n-best policies with limit `0`, keep the first
item that is offered under a key and refuse all others, whatever these cost or score. So cells with
these policies answer alike and hold the same, and differ in the order of their entries at most.

* `Policy.FirstWins`: the four policies. `Policy.FirstWins.judge`: they refuse where an item is
  held.
* `FirstHeld.answer`: what a further offer is answered, and the invariant `FirstHeld` after it, for
  any policy that refuses this offer where an item is held.
* `first_offer_wins`: the answers to any offers in a row, and what the cell holds after them. -/

namespace CategorialChart

variable {κ σ : Type}

theorem withinBeam_of_lt [LT σ] [DecidableLT σ] [Mul σ] {limit : Nat} {held : List (Item κ σ)}
    (h : limit < held.length) (beam : σ) (item : Item κ σ) :
    withinBeam limit beam held item = .refuse .count :=
  if_pos h

/-- The two policies that keep one item and replace none refuse where it is held. -/
theorem Policy.judge_occupied [LT σ] [DecidableLT σ] [Mul σ] {p : Policy σ}
    (hp : p = .oneBest ∨ p = .oneBestOrdered) {held : List (Item κ σ)} (h : held ≠ [])
    (item : Item κ σ) : ∃ why, p.judge held item = .refuse why := by
  obtain ⟨first, rest, rfl⟩ := List.exists_cons_of_ne_nil h
  rcases hp with rfl | rfl <;> exact ⟨.occupied, rfl⟩

/-- The policies that keep the first item of a key and no other. -/
def Policy.FirstWins (p : Policy σ) : Prop :=
  ∃ beam, p ∈ [.oneBest, .oneBestOrdered, .nBest 0 beam, .nBestHashed 0 beam]

namespace Policy.FirstWins

variable {p : Policy σ}

theorem cases (hp : p.FirstWins) :
    p = .oneBest ∨ p = .oneBestOrdered ∨ ∃ beam, p = .nBest 0 beam ∨ p = .nBestHashed 0 beam := by
  obtain ⟨beam, h⟩ := hp
  simp only [List.mem_cons, List.not_mem_nil, or_false] at h
  rcases h with h | h | h | h
  · exact Or.inl h
  · exact Or.inr (Or.inl h)
  · exact Or.inr (Or.inr ⟨beam, Or.inl h⟩)
  · exact Or.inr (Or.inr ⟨beam, Or.inr h⟩)

theorem keyed (hp : p.FirstWins) : p.has .keyed = true := by
  rcases hp.cases with rfl | rfl | ⟨beam, rfl | rfl⟩ <;> rfl

/-- **Where an item is held**, a further one is refused. -/
theorem judge [LT σ] [DecidableLT σ] [Mul σ] (hp : p.FirstWins) {held : List (Item κ σ)}
    (h : held ≠ []) (item : Item κ σ) : ∃ why, p.judge held item = .refuse why := by
  rcases hp.cases with rfl | rfl | hlimit
  · exact judge_occupied (Or.inl rfl) h item
  · exact judge_occupied (Or.inr rfl) h item
  obtain ⟨first, rest, rfl⟩ := List.exists_cons_of_ne_nil h
  rcases hlimit with ⟨beam, rfl | rfl⟩
  · exact ⟨.count, withinBeam_of_lt (Nat.succ_pos rest.length) beam item⟩
  · exact ⟨.count, withinBeam_of_lt (Nat.succ_pos rest.length) beam item⟩

end Policy.FirstWins

section Keys
variable [DecidableEq κ]

theorem under_eq_nil {key : κ} {offers : List (κ × Item κ σ)} :
    under key offers = [] ↔ key ∉ offers.map Prod.fst := by
  rw [under, List.map_eq_nil_iff, List.filter_eq_nil_iff, List.mem_map, not_exists]
  refine forall_congr' fun o => ?_
  rw [decide_eq_true_eq, not_and]

/-- For each of several keys, whether it is none of those before it. -/
def firsts (keys : List κ) : List Bool := keys.mapIdx fun i k => k ∉ keys.take i

theorem firsts_concat (keys : List κ) (k : κ) :
    firsts (keys ++ [k]) = firsts keys ++ [decide (k ∉ keys)] := by
  rw [firsts, List.mapIdx_concat, List.take_left, firsts]
  congr 1
  refine List.mapIdx_eq_mapIdx_iff.mpr fun i hi => ?_
  rw [List.take_append_of_le_length (Nat.le_of_lt hi)]

/-- **The fingerprint of the first offer of each key** can be taken by the hasher it is made
with. -/
def FirstsTaken (offers : List (Hasher × κ × Item κ σ)) : Prop :=
  ∀ i (hi : i < offers.length), offers[i].2.1 ∉ (offers.take i).map (·.2.1) →
    ∃ f, (offers[i].1.fingerprint offers[i].2.2.derivation).1 = .ok f

omit [DecidableEq κ] in
theorem FirstsTaken.of_append {offers later : List (Hasher × κ × Item κ σ)}
    (h : FirstsTaken (offers ++ later)) : FirstsTaken offers := by
  intro i hi hnew
  have hlt : i < (offers ++ later).length := by
    rw [List.length_append]
    omega
  have ho : (offers ++ later)[i] = offers[i] := List.getElem_append_left hi
  rw [← ho]
  refine h i hlt ?_
  rwa [ho, List.take_append_of_le_length (Nat.le_of_lt hi)]

omit [DecidableEq κ] in
theorem FirstsTaken.last {offers : List (Hasher × κ × Item κ σ)} {o : Hasher × κ × Item κ σ}
    (h : FirstsTaken (offers ++ [o])) (hnew : o.2.1 ∉ offers.map (·.2.1)) :
    ∃ f, (o.1.fingerprint o.2.2.derivation).1 = .ok f := by
  have hlt : offers.length < (offers ++ [o]).length := by simp
  have ho : (offers ++ [o])[offers.length] = o := by simp
  rw [← ho]
  refine h offers.length hlt ?_
  rwa [ho, List.take_left]

end Keys

namespace Cell

variable [DecidableEq κ] [Ord κ]

/-- **The invariant**: the cell holds the first item of each key that was offered. -/
structure FirstHeld (policy : Policy σ) (c : Cell κ σ) (offers : List (κ × Item κ σ)) : Prop where
  policy_eq : c.policy = policy
  listed : c.Listed (offers.map Prod.fst)
  items : ∀ k, (c.group k).items = (under k offers).take 1

variable {policy : Policy σ} {c : Cell κ σ} {offers : List (κ × Item κ σ)}

namespace FirstHeld

theorem entriesFor (hc : c.FirstHeld policy offers) (k : κ) :
    c.entriesFor k = (under k offers).take 1 := by
  rw [entriesFor_eq hc.listed.keyed, hc.items]

/-- The entries are the first items of the keys, key by key. -/
theorem entries (hc : c.FirstHeld policy offers) :
    c.entries = (c.groups.map Group.key).flatMap fun k => (under k offers).take 1 := by
  rw [entries_eq hc.listed.keyed]
  exact List.flatMap_congr fun k _ => hc.entriesFor k

/-- As many items as different keys. -/
theorem size (hc : c.FirstHeld policy offers) :
    c.size = (offers.map Prod.fst).toFinset.card := by
  have hone : ∀ k ∈ c.groups.map Group.key, ((under k offers).take 1).length = 1 := by
    intro k hk
    have hne : under k offers ≠ [] := fun h => under_eq_nil.mp h ((hc.listed.mem k).mp hk)
    have := List.length_pos_of_ne_nil hne
    rw [List.length_take]
    omega
  rw [size_eq_length, hc.entries, List.length_flatMap, List.map_congr_left hone, List.map_const',
    List.sum_replicate_nat, Nat.mul_one, List.length_map, hc.listed.length_groups]

variable [LT σ] [DecidableLT σ] [Mul σ] [Std.TransOrd κ] [Std.LawfulEqOrd κ]

/-- **A further offer** is retained exactly if its key is new, if the policy refuses it where its
key is not. -/
theorem answer (hc : c.FirstHeld policy offers) (hkeyed : policy.has .keyed = true)
    {f : Except TermError Fingerprint} {key : κ} {item : Item κ σ}
    (hj : c.entriesFor key ≠ [] → ∃ why, policy.judge (c.entriesFor key) item = .refuse why)
    (hf : policy.has .structuralDedup = true → key ∉ offers.map Prod.fst → ∃ g, f = .ok g) :
    (c.answer f key item).1 = .ok (decide (key ∉ offers.map Prod.fst)) ∧
      (c.answer f key item).2.FirstHeld policy (offers ++ [(key, item)]) := by
  have hkeyed : c.policy.has .keyed = true := by rw [hc.policy_eq, hkeyed]
  have hlisted := hc.listed.answer hkeyed f key item
  have hpolicy := (policy_answer c f key item).trans hc.policy_eq
  rw [← List.map_singleton (f := Prod.fst) (a := (key, item)), ← List.map_append] at hlisted
  by_cases hkey : key ∈ offers.map Prod.fst
  · have hne : c.entriesFor key ≠ [] := by
      rw [hc.entriesFor]
      simpa [List.take_eq_nil_iff] using mt under_eq_nil.mp (not_not_intro hkey)
    rw [← hc.policy_eq] at hj
    obtain ⟨why, hj⟩ := hj hne
    have ha := answer_of_refuse hj f
    refine ⟨by rw [ha, decide_eq_false (not_not_intro hkey)], hpolicy, hlisted, fun k => ?_⟩
    rw [ha, group_refuse, hc.items, under_concat]
    split
    · next hk =>
      subst hk
      rw [List.take_append_of_le_length]
      exact List.length_pos_of_ne_nil (mt under_eq_nil.mp (not_not_intro hkey))
    · rw [List.append_nil]
  · have hnew : key ∉ c.groups.map Group.key := mt (hc.listed.mem key).mp hkey
    rw [← hc.policy_eq] at hf
    obtain ⟨g, ha⟩ := answer_of_new hnew (fun hd => hf hd hkey) item
    refine ⟨by rw [ha, decide_eq_true hkey], hpolicy, hlisted, fun k => ?_⟩
    rw [ha, group_keep hc.listed.keyed hkeyed, under_concat]
    by_cases hk : k = key
    · subst hk
      simp [Group.push, hc.items, under_eq_nil.mpr hkey]
    · rw [if_neg hk, if_neg (Ne.symm hk), List.append_nil, hc.items]

end FirstHeld

variable [LT σ] [DecidableLT σ] [Mul σ] [Std.TransOrd κ] [Std.LawfulEqOrd κ]

/-- Offers in a row are retained where their keys are new, if the policy refuses all others. -/
theorem firstHeld_of_refuses (hkeyed : policy.has .keyed = true)
    (hj : ∀ held : List (Item κ σ), held ≠ [] → ∀ item, ∃ why, policy.judge held item = .refuse why)
    (offers : List (Hasher × κ × Item κ σ))
    (hf : policy.has .structuralDedup = true → FirstsTaken offers) :
    (({ policy := policy } : Cell κ σ).offerEach offers).1 =
        (firsts (offers.map (·.2.1))).map .ok ∧
      (({ policy := policy } : Cell κ σ).offerEach offers).2.FirstHeld policy
        (offers.map Prod.snd) := by
  induction offers using List.reverseRecOn with
  | nil => exact ⟨rfl, rfl, listed_empty policy, fun _ => rfl⟩
  | append_singleton offers o ih =>
    obtain ⟨h1, h2⟩ := ih fun hd => (hf hd).of_append
    have hkeys : (offers.map Prod.snd).map Prod.fst = offers.map (·.2.1) := List.map_map
    have ho : policy.has .structuralDedup = true → o.2.1 ∉ (offers.map Prod.snd).map Prod.fst →
        ∃ g, (o.1.fingerprint o.2.2.derivation).1 = .ok g := by
      intro hd hnew
      rw [hkeys] at hnew
      exact (hf hd).last hnew
    obtain ⟨h3, h4⟩ := h2.answer hkeyed (fun h => hj _ h o.2.2) ho
    rw [offerEach_concat, List.map_append, List.map_append, List.map_singleton, List.map_singleton,
      firsts_concat, List.map_append, List.map_singleton, ← hkeys]
    exact ⟨by rw [h1, h3, hkeys], h4⟩

theorem firstHeld_offerEach (hp : policy.FirstWins) (offers : List (Hasher × κ × Item κ σ))
    (hf : policy.has .structuralDedup = true → FirstsTaken offers) :
    (({ policy := policy } : Cell κ σ).offerEach offers).1 =
        (firsts (offers.map (·.2.1))).map .ok ∧
      (({ policy := policy } : Cell κ σ).offerEach offers).2.FirstHeld policy
        (offers.map Prod.snd) :=
  firstHeld_of_refuses hp.keyed (fun _ => hp.judge) offers hf

/-- **The first offer wins** in four kinds of cells, and they agree. Whatever is offered to a cell
with one of the four policies, an offer is answered with `true` exactly if its key was not offered
before. After each offer the cell holds as many items as different keys were offered, under each key
the first item offered under it. The entries stand in the strict order of the keys if the policy
orders them, and with an n-best policy in the order of the first offers of their keys. -/
theorem first_offer_wins (hp : policy.FirstWins) (offers : List (Hasher × κ × Item κ σ))
    (hf : policy.has .structuralDedup = true → FirstsTaken offers) :
    let r := ({ policy := policy } : Cell κ σ).offerEach offers
    let keyed := offers.map Prod.snd
    let keys := keyed.map Prod.fst
    r.1 = (firsts keys).map .ok ∧
      (∀ n, (({ policy := policy } : Cell κ σ).offerEach (offers.take n)).2.size =
        (keys.take n).toFinset.card) ∧
      (∀ k, r.2.entriesFor k = (under k keyed).take 1) ∧
      (policy = .oneBestOrdered → ∃ ks, Ascending ks ∧ (∀ k, k ∈ ks ↔ k ∈ keys) ∧
        r.2.entries = ks.flatMap fun k => (under k keyed).take 1) ∧
      (policy ≠ .oneBest → policy ≠ .oneBestOrdered →
        r.2.entries = keys.eraseDups.flatMap fun k => (under k keyed).take 1) := by
  intro r keyed keys
  have hkeys : keys = offers.map (·.2.1) := List.map_map
  obtain ⟨h1, h2⟩ := firstHeld_offerEach hp offers hf
  refine ⟨by rw [h1, hkeys], fun n => ?_, h2.entriesFor, fun ho => ?_, fun hb ho => ?_⟩
  · have htake : policy.has .structuralDedup = true → FirstsTaken (offers.take n) := by
      intro hd
      have h : FirstsTaken (offers.take n ++ offers.drop n) := by
        rw [List.take_append_drop]
        exact hf hd
      exact h.of_append
    rw [(firstHeld_offerEach hp (offers.take n) htake).2.size, List.map_take, List.map_take]
  · have hordered : r.2.policy.has .orderedKeys = true := by rw [h2.policy_eq, ho]; rfl
    exact ⟨_, h2.listed.ascending hordered, h2.listed.mem, h2.entries⟩
  · have hunordered : r.2.policy.has .orderedKeys = false := by
      rw [h2.policy_eq]
      rcases hp.cases with rfl | rfl | ⟨beam, rfl | rfl⟩
      · exact absurd rfl hb
      · exact absurd rfl ho
      · rfl
      · rfl
    rw [← h2.listed.first hunordered]
    exact h2.entries

end Cell

namespace Forest

/-- Offers under two keys, made with a new hasher each. The last item has no fingerprint. -/
def contested : List (Hasher × Nat × Item Nat Nat) :=
  [({ table }, 1, item once 3), ({ table }, 0, item twice 5), ({ table }, 1, item broken 9)]

theorem firstsTaken_contested : FirstsTaken contested := by
  have hr : Hasher.Reached table trees { table } := .new
  have hok : ∀ d ∈ [once, twice], ∃ f, (Hasher.fingerprint { table } d).1 = .ok f := by
    intro d hd
    have hmem : d ∈ trees := by
      rcases List.mem_pair.mp hd with rfl | rfl <;> simp [trees]
    rw [hr.fingerprint_eq own_trees hmem]
    rcases List.mem_pair.mp hd with rfl | rfl
    · exact ⟨_, rfl⟩
    · exact ⟨_, rfl⟩
  intro i hi hnew
  have hlen : contested.length = 3 := rfl
  obtain rfl | rfl | rfl : i = 0 ∨ i = 1 ∨ i = 2 := by omega
  · exact hok once (by simp)
  · exact hok twice (by simp)
  · exact absurd List.mem_cons_self hnew

end Forest

open Forest in
/-- The last offer is refused, so its item needs no fingerprint. -/
theorem Cell.first_offer_wins_forest :
    (({ policy := .nBestHashed 0 1 } : Cell Nat Nat).offerEach contested).1 =
        [.ok true, .ok true, .ok false] ∧
      (({ policy := .nBestHashed 0 1 } : Cell Nat Nat).offerEach contested).2.entries =
        [item once 3, item twice 5] := by
  have hp : Policy.FirstWins (.nBestHashed 0 1 : Policy Nat) := ⟨1, by simp⟩
  obtain ⟨h1, -, -, -, h5⟩ := first_offer_wins hp contested fun _ => firstsTaken_contested
  rw [h1, h5 (by simp) (by simp)]
  exact ⟨rfl, rfl⟩

end CategorialChart
