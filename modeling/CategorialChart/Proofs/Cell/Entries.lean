import CategorialChart.Proofs.Cell.Order

/-! # What an answer does to the entries

An item that a cell keeps is put somewhere among its entries. An item that replaces another takes
its place. Nothing else changes the entries, and `WellKept.answer_entries` says which of these an
answer does, with the reason for which it refuses and the entry that it replaces.

`Cell.WellKept` is the invariant: one group for a key where the policy has keys, and no more than
one item for a key where items are replaced. -/

namespace CategorialChart

variable {κ σ : Type}

/-- The reasons for which a policy refuses items. -/
def Policy.refuses : Policy σ → Refusal → Bool
  | .oneBest, .occupied | .oneBestOrdered, .occupied => true
  | .oneBestCky, .notBetter => true
  | .nBest _ _, .count | .nBest _ _, .beam => true
  | .nBestHashed _ _, .count | .nBestHashed _ _, .beam | .nBestHashed _ _, .duplicate => true
  | _, _ => false

/-- The key under which an offer is grouped: the one it is made under if the policy has keys, else
that of its item. -/
def Policy.groupKey (p : Policy σ) (offer : κ × Item κ σ) : κ :=
  if p.has .keyed then offer.1 else offer.2.key

section Judge
variable [LT σ] [DecidableLT σ] [Mul σ] {held : List (Item κ σ)} {item : Item κ σ}

theorem withinBeam_cases (limit : Nat) (beam : σ) (held : List (Item κ σ)) (item : Item κ σ) :
    withinBeam limit beam held item = .keep ∨
      ∃ why, (why = .count ∨ why = .beam) ∧ withinBeam limit beam held item = .refuse why := by
  unfold withinBeam
  by_cases hcount : limit < held.length
  · exact Or.inr ⟨.count, Or.inl rfl, if_pos hcount⟩
  rw [if_neg hcount]
  rcases held with _ | ⟨first, rest⟩
  · exact Or.inl rfl
  by_cases hbeam : item.cost < beam * first.cost
  · exact Or.inr ⟨.beam, Or.inr rfl, if_pos hbeam⟩
  · exact Or.inl (if_neg hbeam)

/-- **What a policy can say of an item**: it refuses for its own reasons, and only an item that is
held and scores less is replaced. -/
theorem Policy.judge_cases (p : Policy σ) (held : List (Item κ σ)) (item : Item κ σ) :
    p.judge held item = .keep ∨
      (∃ why, p.refuses why = true ∧ p.judge held item = .refuse why) ∨
      p = .oneBestCky ∧ p.judge held item = .replace ∧
        ∃ old rest, held = old :: rest ∧ old.insideScore < item.insideScore := by
  rcases held with _ | ⟨old, rest⟩
  · exact Or.inl (p.judge_nil item)
  cases p with
  | oneBest => exact Or.inr (Or.inl ⟨.occupied, rfl, rfl⟩)
  | oneBestOrdered => exact Or.inr (Or.inl ⟨.occupied, rfl, rfl⟩)
  | oneBestCky =>
    by_cases h : old.insideScore < item.insideScore
    · exact Or.inr (Or.inr ⟨rfl, if_pos h, old, rest, rfl, h⟩)
    · exact Or.inr (Or.inl ⟨.notBetter, rfl, if_neg h⟩)
  | nBest limit beam =>
    rcases withinBeam_cases limit beam (old :: rest) item with h | ⟨why, hwhy, h⟩
    · exact Or.inl h
    · exact Or.inr (Or.inl ⟨why, by rcases hwhy with rfl | rfl <;> rfl, h⟩)
  | nBestHashed limit beam =>
    rcases withinBeam_cases limit beam (old :: rest) item with h | ⟨why, hwhy, h⟩
    · exact Or.inl h
    · exact Or.inr (Or.inl ⟨why, by rcases hwhy with rfl | rfl <;> rfl, h⟩)
  | unbounded => exact Or.inl rfl

/-- Where items are replaced, an item is kept if its key holds none. -/
theorem Policy.eq_nil_of_keep (h : Policy.oneBestCky.judge held item = .keep) : held = [] := by
  rcases held with _ | ⟨old, rest⟩
  · rfl
  · simp only [judge] at h
    split at h <;> cases h

end Judge

namespace Cell

variable [DecidableEq κ] {c : Cell κ σ}

/-! ### Entries -/

/-- What is held under a key is held. -/
theorem mem_entries_of_mem {key : κ} {x : Item κ σ} (h : x ∈ c.entriesFor key) :
    x ∈ c.entries := by
  obtain ⟨g, hg, hx⟩ := List.mem_flatMap.mp h
  exact List.mem_flatMap.mpr ⟨g, List.mem_of_mem_filter hg, hx⟩

theorem updateGroup_of_notMem {key : κ} {gs : List (Group κ σ)} (h : key ∉ gs.map Group.key)
    (f : Group κ σ → Group κ σ) : updateGroup key f gs = gs := by
  refine (List.map_congr_left fun g hg => if_neg fun hk => h ?_).trans (List.map_id gs)
  rw [← hk]
  exact List.mem_map_of_mem hg

/-- The group of a key stands between other groups, which a change to it leaves as they are. -/
theorem updateGroup_split {key : κ} {gs : List (Group κ σ)} (hn : (gs.map Group.key).Nodup)
    (hkey : key ∈ gs.map Group.key) :
    ∃ l g r, gs = l ++ g :: r ∧ gs.filter (fun g => g.key = key) = [g] ∧
      ∀ f, updateGroup key f gs = l ++ f g :: r := by
  obtain ⟨g, hg, rfl⟩ := List.mem_map.mp hkey
  obtain ⟨l, r, rfl⟩ := List.append_of_mem hg
  rw [List.map_append, List.map_cons, List.nodup_middle, List.nodup_cons, List.mem_append,
    not_or] at hn
  obtain ⟨⟨hl, hr⟩, -⟩ := hn
  refine ⟨l, g, r, rfl, ?_, fun f => ?_⟩
  · rw [List.filter_append, List.filter_cons, filter_key_eq_nil hl, filter_key_eq_nil hr]
    simp
  · have hf : updateGroup g.key f (l ++ g :: r) =
        updateGroup g.key f l ++ (if g.key = g.key then f g else g) :: updateGroup g.key f r := by
      unfold updateGroup
      rw [List.map_append, List.map_cons]
    rw [hf, if_pos rfl, updateGroup_of_notMem hl, updateGroup_of_notMem hr]

/-- **An item that takes the place of another** stands where that one stood. -/
theorem entries_replace (hc : c.Keyed) {key : κ} {old : Item κ σ} (h : c.entriesFor key = [old])
    (item : Item κ σ) :
    ∃ l r, c.entries = l ++ old :: r ∧ (c.replace key item).entries = l ++ item :: r := by
  have hkey : key ∈ c.groups.map Group.key := mem_keys_of_entriesFor (by rw [h]; simp)
  obtain ⟨l, g, r, hgs, hg, hf⟩ := updateGroup_split hc hkey
  rw [entriesFor, groupsFor, hg, List.flatMap_singleton] at h
  refine ⟨l.flatMap Group.items, r.flatMap Group.items, ?_, ?_⟩
  · rw [entries, hgs, List.flatMap_append, List.flatMap_cons, h]
    rfl
  · rw [entries, replace, hf, List.flatMap_append, List.flatMap_cons]
    rfl

variable [Ord κ]

theorem entries_withGroup (c : Cell κ σ) (key : κ) : (c.withGroup key).entries = c.entries := by
  unfold entries Cell.withGroup
  rcases groupsWith_cases c key with ⟨-, he⟩ | ⟨-, l, r, hg, he⟩
  · rw [he]
  · rw [he, hg, List.flatMap_append, List.flatMap_append, List.flatMap_cons, List.nil_append]

theorem entriesFor_withGroup (c : Cell κ σ) (key k : κ) :
    (c.withGroup key).entriesFor k = c.entriesFor k := by
  unfold entriesFor groupsFor Cell.withGroup
  rcases groupsWith_cases c key with ⟨-, he⟩ | ⟨-, l, r, hg, he⟩
  · rw [he]
  · rw [he, hg]
    by_cases hk : key = k <;> simp [hk]

theorem seenFor_withGroup (c : Cell κ σ) (key k : κ) :
    (c.withGroup key).seenFor k = c.seenFor k := by
  unfold seenFor groupsFor Cell.withGroup
  rcases groupsWith_cases c key with ⟨-, he⟩ | ⟨-, l, r, hg, he⟩
  · rw [he]
  · rw [he, hg]
    by_cases hk : key = k <;> simp [hk]

/-- **The group of a key may be made before the verdict.** With a policy that has keys, every offer
ends as it does where the group is there already. -/
theorem offer_withGroup [LT σ] [DecidableLT σ] [Mul σ] (hp : c.policy.has .keyed = true)
    (h : Hasher) (key : κ) (item : Item κ σ) :
    (c.withGroup key).offer h key item = c.offer h key item := by
  by_cases hkey : key ∈ c.groups.map Group.key
  · rw [withGroup_of_mem hkey]
  -- the item is kept, and to make its group a second time does nothing
  have hagain : (c.withGroup key).groupsWith key = c.groupsWith key :=
    congrArg Cell.groups (withGroup_of_mem (keys_groupsWith c key))
  have hkeep : ∀ g, (c.withGroup key).keep key item g = c.keep key item g := fun g => by
    have hgroups : ((c.withGroup key).keep key item g).groups = (c.keep key item g).groups := by
      rw [groups_keep hp, groups_keep (c := c.withGroup key) hp, hagain]
    exact congrArg (fun groups => (⟨c.policy, groups, c.stats.retained false⟩ : Cell κ σ)) hgroups
  have hnil : c.entriesFor key = [] := by
    by_contra hne
    exact hkey (mem_keys_of_entriesFor hne)
  have hverdict : c.policy.judge (c.entriesFor key) item = .keep :=
    judge_of_entriesFor_eq_nil hnil item
  have hverdict' : (c.withGroup key).policy.judge ((c.withGroup key).entriesFor key) item =
      .keep := by
    rw [entriesFor_withGroup]
    exact hverdict
  have hnew : ∀ f, f ∉ c.seenFor key := fun f hf => hkey (mem_keys_of_seenFor hf)
  unfold offer
  rw [hverdict, hverdict']
  simp only [hkeep, hagain, seenFor_withGroup, hnew, if_false]
  rfl

/-- **An item that is kept** is put somewhere among the entries. -/
theorem entries_keep (hc : c.policy.has .keyed = true → c.Keyed) (key : κ) (item : Item κ σ)
    (f : Option Fingerprint) :
    ∃ l r, c.entries = l ++ r ∧ (c.keep key item f).entries = l ++ item :: r := by
  by_cases hp : c.policy.has .keyed = true
  · obtain ⟨l, g, r, hgs, -, hf⟩ :=
      updateGroup_split ((hc hp).withGroup key) (keys_groupsWith c key)
    refine ⟨l.flatMap Group.items ++ g.items, r.flatMap Group.items, ?_, ?_⟩
    · rw [← entries_withGroup c key, entries, hgs, List.flatMap_append, List.flatMap_cons,
        List.append_assoc]
    · have hkeep := groups_keep hp key item f
      rw [entries, hkeep]
      have := hf (Group.push item f)
      rw [Cell.withGroup] at this
      rw [this, List.flatMap_append, List.flatMap_cons]
      simp [Group.push]
  · have hu : c.policy = .unbounded := by
      cases hpol : c.policy <;> rw [hpol] at hp <;> simp [Policy.has] at hp
    refine ⟨c.entries, [], (List.append_nil _).symm, ?_⟩
    rw [entries, keep, hu, List.flatMap_append]
    rfl

/-- **An item that is kept** goes to the end of those of its group, and of no other. -/
theorem entriesFor_keep (hc : c.policy.has .keyed = true → c.Keyed) (key : κ) (item : Item κ σ)
    (f : Option Fingerprint) (k : κ) :
    (c.keep key item f).entriesFor k =
      c.entriesFor k ++ if c.policy.groupKey (key, item) = k then [item] else [] := by
  unfold Policy.groupKey
  by_cases hp : c.policy.has .keyed = true
  · rw [entriesFor_eq ((hc hp).keep hp key item f), group_keep (hc hp) hp, entriesFor_eq (hc hp),
      if_pos hp]
    by_cases hk : k = key
    · subst hk
      rw [if_pos rfl, if_pos rfl]
      rfl
    · rw [if_neg hk, if_neg (Ne.symm hk), List.append_nil]
  · have hu : c.policy = .unbounded := by
      cases hpol : c.policy <;> rw [hpol] at hp <;> simp [Policy.has] at hp
    rw [if_neg hp]
    unfold entriesFor groupsFor keep
    rw [hu]
    by_cases hk : item.key = k <;> simp [hk]

/-! ### Answers -/

/-- **The invariant of a cell**: a key has one group if there are keys, and one item at most if
items are replaced. -/
structure WellKept (c : Cell κ σ) : Prop where
  keyed : c.policy.has .keyed = true → c.Keyed
  single : c.policy = .oneBestCky → ∀ k, (c.entriesFor k).length ≤ 1

omit [Ord κ] in
theorem wellKept_empty (policy : Policy σ) : ({ policy := policy } : Cell κ σ).WellKept where
  keyed _ := keyed_empty policy
  single _ k := by simp [entriesFor, groupsFor]

variable [LT σ] [DecidableLT σ] [Mul σ]

/-- **What an answer does to the entries.** -/
theorem WellKept.answer_entries (hc : c.WellKept) (f : Except TermError Fingerprint) (key : κ)
    (item : Item κ σ) :
    (∃ why, c.policy.refuses why = true ∧ key ∈ c.groups.map Group.key ∧
        c.answer f key item = (.ok false, c.refuse why)) ∨
      (∃ e, c.answer f key item = (.error e, c.withGroup key)) ∨
      (∃ g l r, c.policy.judge (c.entriesFor key) item = .keep ∧
        c.answer f key item = (.ok true, c.keep key item g) ∧
        c.entries = l ++ r ∧ (c.keep key item g).entries = l ++ item :: r) ∨
      ∃ old l r, c.policy = .oneBestCky ∧ old.insideScore < item.insideScore ∧
        c.entriesFor key = [old] ∧ c.answer f key item = (.ok true, c.replace key item) ∧
        c.entries = l ++ old :: r ∧ (c.replace key item).entries = l ++ item :: r := by
  rcases c.policy.judge_cases (c.entriesFor key) item with
    hj | ⟨why, hwhy, hj⟩ | ⟨hp, hj, old, rest, hheld, hlt⟩
  · have hkeep : ∀ g, c.answer f key item = (.ok true, c.keep key item g) →
        ∃ g l r, c.policy.judge (c.entriesFor key) item = .keep ∧
          c.answer f key item = (.ok true, c.keep key item g) ∧
          c.entries = l ++ r ∧ (c.keep key item g).entries = l ++ item :: r := by
      intro g ha
      obtain ⟨l, r, h1, h2⟩ := entries_keep hc.keyed key item g
      exact ⟨g, l, r, hj, ha, h1, h2⟩
    unfold answer at hkeep ⊢
    rw [hj] at hkeep ⊢
    by_cases hp : c.policy.has .structuralDedup = true
    · simp only [if_pos hp] at hkeep ⊢
      rcases f with e | f
      · exact Or.inr (Or.inl ⟨e, rfl⟩)
      by_cases hf : f ∈ c.seenFor key
      · refine Or.inl ⟨.duplicate, ?_, mem_keys_of_seenFor hf, if_pos hf⟩
        cases hpol : c.policy <;> rw [hpol] at hp <;> first | rfl | cases hp
      · exact Or.inr (Or.inr (Or.inl (hkeep (some f) (if_neg hf))))
    · exact Or.inr (Or.inr (Or.inl (hkeep none (if_neg hp))))
  · refine Or.inl ⟨why, hwhy, mem_keys_of_judge (by rw [hj]; simp), ?_⟩
    unfold answer
    rw [hj]
  · have hone := hc.single hp key
    have hkeyed := hc.keyed (by rw [hp]; rfl)
    obtain rfl : rest = [] := by
      rw [hheld] at hone
      simpa using hone
    obtain ⟨l, r, h1, h2⟩ := entries_replace hkeyed hheld item
    refine Or.inr (Or.inr (Or.inr ⟨old, l, r, hp, hlt, hheld, ?_, h1, h2⟩))
    unfold answer
    rw [hj]

theorem WellKept.answer (hc : c.WellKept) (f : Except TermError Fingerprint) (key : κ)
    (item : Item κ σ) : (c.answer f key item).2.WellKept := by
  have hpolicy : (c.answer f key item).2.policy = c.policy := policy_answer c f key item
  refine ⟨fun hp => ?_, fun hp k => ?_⟩
  · rw [hpolicy] at hp
    exact (hc.keyed hp).answer hp f key item
  · rw [hpolicy] at hp
    have hkeyed : c.policy.has .keyed = true := by rw [hp]; rfl
    have hc' := hc.keyed hkeyed
    have hone := hc.single hp k
    rw [entriesFor_eq (hc'.answer hkeyed f key item)]
    rw [entriesFor_eq hc'] at hone
    rcases hc.answer_entries f key item with
      ⟨why, -, -, ha⟩ | ⟨e, ha⟩ | ⟨g, -, -, hj, ha, -⟩ | ⟨old, -, -, -, -, hold, ha, -⟩ <;> rw [ha]
    · exact hone
    · rw [group_withGroup]
      exact hone
    · rw [hp] at hj
      have hnil := Policy.eq_nil_of_keep hj
      rw [group_keep hc' hkeyed]
      split
      · rw [entriesFor_eq hc'] at hnil
        simp [Group.push, hnil]
      · exact hone
    · rw [group_replace hc' (mem_keys_of_entriesFor (by rw [hold]; simp))]
      split
      · simp
      · exact hone

end Cell

end CategorialChart
