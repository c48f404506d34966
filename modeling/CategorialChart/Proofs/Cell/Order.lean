import CategorialChart.Proofs.Cell.Runs
import CategorialChart.Proofs.List.Repetitions

/-! # The order of entries

The entries of a cell that keeps its items by keys are those of each key, key by key
(`entries_eq`). The keys stand in the order of their first offers, whatever became of these
(`Reached.keys_eq`), unless the policy orders them.

So two cells with the same group for every key (`Alike`) show the same but for the order of their
entries: `Alike.answer` says that they answer alike and remain alike, `Alike.entries_perm` that
their entries are the same up to their order. -/

namespace CategorialChart

open CategorialChart.Derivation (OwnNumbers)

/-- What is listed nowhere twice may be listed in any order, and what gives nothing need not be
listed. -/
theorem flatMap_perm {α β : Type} {l l' : List α} (hl : l.Nodup) (hl' : l'.Nodup)
    {f : α → List β} (h : ∀ a, f a ≠ [] → (a ∈ l ↔ a ∈ l')) :
    (l.flatMap f).Perm (l'.flatMap f) := by
  have hdrop : ∀ m : List α, m.flatMap f = (m.filter fun a => !(f a).isEmpty).flatMap f := by
    intro m
    induction m with
    | nil => rfl
    | cons a m ih => by_cases ha : f a = [] <;> simp [ha, ih]
  rw [hdrop l, hdrop l']
  refine List.Perm.flatMap_right f ?_
  refine (List.perm_ext_iff_of_nodup (hl.filter _) (hl'.filter _)).mpr fun a => ?_
  rw [List.mem_filter, List.mem_filter]
  refine and_congr_left fun ha => h a ?_
  simpa using ha

namespace Cell

variable {κ σ : Type}

theorem size_eq_length (c : Cell κ σ) : c.size = c.entries.length := by
  unfold size entries
  induction c.groups with
  | nil => rfl
  | cons g gs ih => rw [List.foldr_cons, ih, List.flatMap_cons, List.length_append]

variable [DecidableEq κ] {c c' : Cell κ σ}

/-! ### Entries by keys -/

theorem mem_keys_of_entriesFor {k : κ} (h : c.entriesFor k ≠ []) :
    k ∈ c.groups.map Group.key := by
  by_contra hk
  exact h (by rw [entriesFor, groupsFor, filter_key_eq_nil hk, List.flatMap_nil])

theorem mem_keys_of_seenFor {k : κ} {f : Fingerprint} (h : f ∈ c.seenFor k) :
    k ∈ c.groups.map Group.key := by
  by_contra hk
  rw [seenFor, groupsFor, filter_key_eq_nil hk, List.flatMap_nil] at h
  cases h

theorem entriesFor_key (hc : c.Keyed) {g : Group κ σ} (hg : g ∈ c.groups) :
    c.entriesFor g.key = g.items := by
  obtain ⟨g', hg'⟩ := filter_key_eq_singleton hc (List.mem_map_of_mem hg)
  have hmem : g ∈ c.groups.filter fun h => h.key = g.key := List.mem_filter.mpr ⟨hg, by simp⟩
  rw [hg', List.mem_singleton] at hmem
  rw [entriesFor, groupsFor, hg', hmem, List.flatMap_singleton]

/-- **The entries of a cell** are those of its keys, one key after another. -/
theorem entries_eq (hc : c.Keyed) :
    c.entries = (c.groups.map Group.key).flatMap c.entriesFor := by
  rw [entries, List.flatMap_map]
  exact List.flatMap_congr fun g hg => (entriesFor_key hc hg).symm

/-! ### Cells that are alike -/

/-- The cells differ at most in the order of their groups, and by groups without items. -/
structure Alike (c c' : Cell κ σ) : Prop where
  policy : c.policy = c'.policy
  stats : c.stats = c'.stats
  left : c.Keyed
  right : c'.Keyed
  group : ∀ k, c.group k = c'.group k

/-- What two cells show is the same, but for the order of their entries. -/
structure ShowsAs (c c' : Cell κ σ) : Prop where
  stats : c.stats = c'.stats
  size : c.size = c'.size
  entriesFor : ∀ k, c.entriesFor k = c'.entriesFor k

namespace Alike

theorem entriesFor (h : Alike c c') (k : κ) : c.entriesFor k = c'.entriesFor k := by
  rw [entriesFor_eq h.left, entriesFor_eq h.right, h.group]

theorem seenFor (h : Alike c c') (k : κ) : c.seenFor k = c'.seenFor k := by
  rw [seenFor_eq h.left, seenFor_eq h.right, h.group]

/-- Cells that are alike hold the same entries. -/
theorem entries_perm (h : Alike c c') : c.entries.Perm c'.entries := by
  have hfor : c.entriesFor = c'.entriesFor := funext h.entriesFor
  rw [entries_eq h.left, entries_eq h.right, ← hfor]
  refine flatMap_perm h.left h.right fun k hk => ⟨fun _ => ?_, fun _ => ?_⟩
  · rw [h.entriesFor] at hk
    exact mem_keys_of_entriesFor hk
  · exact mem_keys_of_entriesFor hk

theorem showsAs (h : Alike c c') : ShowsAs c c' where
  stats := h.stats
  size := by rw [size_eq_length, size_eq_length, h.entries_perm.length_eq]
  entriesFor := h.entriesFor

theorem refuse (h : Alike c c') (why : Refusal) : Alike (c.refuse why) (c'.refuse why) where
  policy := h.policy
  stats := by
    show c.stats.refused why = c'.stats.refused why
    rw [h.stats]
  left := h.left.refuse why
  right := h.right.refuse why
  group k := by rw [group_refuse, group_refuse, h.group]

theorem replace (h : Alike c c') {key : κ} (hkey : key ∈ c.groups.map Group.key)
    (hkey' : key ∈ c'.groups.map Group.key) (item : Item κ σ) :
    Alike (c.replace key item) (c'.replace key item) where
  policy := h.policy
  stats := by
    show c.stats.retained true = c'.stats.retained true
    rw [h.stats]
  left := h.left.replace key item
  right := h.right.replace key item
  group k := by rw [group_replace h.left hkey, group_replace h.right hkey', h.group, h.group]

variable [Ord κ]

theorem withGroup (h : Alike c c') (key : κ) : Alike (c.withGroup key) (c'.withGroup key) where
  policy := h.policy
  stats := h.stats
  left := h.left.withGroup key
  right := h.right.withGroup key
  group k := by rw [group_withGroup, group_withGroup, h.group]

theorem keep (h : Alike c c') (hp : c.policy.has .keyed = true) (key : κ) (item : Item κ σ)
    (f : Option Fingerprint) : Alike (c.keep key item f) (c'.keep key item f) := by
  have hp' : c'.policy.has .keyed = true := by rw [← h.policy, hp]
  refine ⟨h.policy, ?_, h.left.keep hp key item f, h.right.keep hp' key item f, fun k => ?_⟩
  · show c.stats.retained false = c'.stats.retained false
    rw [h.stats]
  · rw [group_keep h.left hp, group_keep h.right hp', h.group, h.group]

end Alike

section Offers
variable [Ord κ]

theorem alike_withGroup (hc : c.Keyed) (key : κ) : Alike (c.withGroup key) c where
  policy := rfl
  stats := rfl
  left := hc.withGroup key
  right := hc
  group k := group_withGroup c key k

theorem keys_withGroup (ho : c.policy.has .orderedKeys = false) (key : κ) :
    (c.withGroup key).groups.map Group.key =
      if key ∈ c.groups.map Group.key then c.groups.map Group.key
      else c.groups.map Group.key ++ [key] := by
  have hmem : (c.groups.any fun g => g.key = key) = true ↔ key ∈ c.groups.map Group.key := by
    simp
  unfold Cell.withGroup groupsWith
  by_cases h : key ∈ c.groups.map Group.key
  · rw [if_pos h, if_pos (hmem.mpr h)]
  · rw [if_neg h, if_neg (mt hmem.mp h), ho, if_neg Bool.false_ne_true, List.map_append]
    rfl

variable [LT σ] [DecidableLT σ] [Mul σ]

omit [Ord κ] in
/-- A key under which an item is refused or replaced has been offered. -/
theorem mem_keys_of_judge {key : κ} {item : Item κ σ}
    (h : c.policy.judge (c.entriesFor key) item ≠ .keep) : key ∈ c.groups.map Group.key :=
  mem_keys_of_entriesFor fun hnil => h (judge_of_entriesFor_eq_nil hnil item)

/-- The first offer under a key is retained, if its fingerprint can be taken where it is asked
for. -/
theorem answer_of_new {key : κ} (hkey : key ∉ c.groups.map Group.key)
    {f : Except TermError Fingerprint} (hf : c.policy.has .structuralDedup = true → ∃ g, f = .ok g)
    (item : Item κ σ) : ∃ g, c.answer f key item = (.ok true, c.keep key item g) := by
  have hj : c.policy.judge (c.entriesFor key) item = .keep := by
    by_contra hj
    exact hkey (mem_keys_of_judge hj)
  by_cases hp : c.policy.has .structuralDedup = true
  · obtain ⟨g, rfl⟩ := hf hp
    have hasks : c.asks key item = true := by
      unfold asks
      rw [hj, hp]
      rfl
    have hnew : g ∉ c.seenFor key := fun hg => hkey (mem_keys_of_seenFor hg)
    exact ⟨some g, by rw [(answer_of_asks hasks).2, if_neg hnew]⟩
  · exact ⟨none, answer_of_keep (Bool.eq_false_iff.mpr hp) hj f⟩

/-- **Cells that are alike answer alike**, and remain alike. -/
theorem Alike.answer (h : Alike c c') (hp : c.policy.has .keyed = true)
    (f : Except TermError Fingerprint) (key : κ) (item : Item κ σ) :
    (c.answer f key item).1 = (c'.answer f key item).1 ∧
      Alike (c.answer f key item).2 (c'.answer f key item).2 := by
  have hjudge : c'.policy.judge (c'.entriesFor key) item =
      c.policy.judge (c.entriesFor key) item := by rw [h.policy, h.entriesFor]
  unfold Cell.answer
  rw [hjudge, ← h.policy, ← h.seenFor]
  rcases hj : c.policy.judge (c.entriesFor key) item with _ | _ | why <;> dsimp only
  · split
    · rcases f with e | f <;> dsimp only
      · exact ⟨rfl, h.withGroup key⟩
      · split
        · exact ⟨rfl, h.refuse .duplicate⟩
        · exact ⟨rfl, h.keep hp key item (some f)⟩
    · exact ⟨rfl, h.keep hp key item none⟩
  · have hkey : key ∈ c.groups.map Group.key := mem_keys_of_judge (by rw [hj]; simp)
    have hkey' : key ∈ c'.groups.map Group.key := mem_keys_of_judge (by rw [hjudge, hj]; simp)
    exact ⟨rfl, h.replace hkey hkey' item⟩
  · exact ⟨rfl, h.refuse why⟩

/-! ### The order of the keys -/

/-- **Whatever becomes of an offer**, its key has been seen, and no other key is new. -/
theorem keys_answer_eq (hp : c.policy.has .keyed = true) (f : Except TermError Fingerprint)
    (key : κ) (item : Item κ σ) :
    (c.answer f key item).2.groups.map Group.key = (c.withGroup key).groups.map Group.key := by
  have hkeep : ∀ g, (c.keep key item g).groups.map Group.key =
      (c.withGroup key).groups.map Group.key := fun g => by
    rw [groups_keep hp, keys_updateGroup (f := Group.push item g) fun _ => rfl]
    rfl
  unfold Cell.answer
  rcases hj : c.policy.judge (c.entriesFor key) item with _ | _ | why <;> dsimp only
  · split
    · rcases f with e | f <;> dsimp only
      split
      · next hf =>
        rw [withGroup_of_mem (mem_keys_of_seenFor hf)]
        rfl
      · exact hkeep (some f)
    · exact hkeep none
  · rw [withGroup_of_mem (mem_keys_of_judge (by rw [hj]; simp))]
    exact keys_updateGroup (f := fun g => { g with items := [item] }) (fun _ => rfl) key c.groups
  · rw [withGroup_of_mem (mem_keys_of_judge (by rw [hj]; simp))]
    rfl

/-- A new key comes last, if the policy does not order them. -/
theorem keys_answer (hp : c.policy.has .keyed = true) (ho : c.policy.has .orderedKeys = false)
    (f : Except TermError Fingerprint) (key : κ) (item : Item κ σ) :
    (c.answer f key item).2.groups.map Group.key =
      if key ∈ c.groups.map Group.key then c.groups.map Group.key
      else c.groups.map Group.key ++ [key] :=
  (keys_answer_eq hp f key item).trans (keys_withGroup ho key)

variable {t : ContributionTable} {D : Set Derivation} {policy : Policy σ}
  {past : List (κ × Item κ σ)}

theorem Reached.policy_eq (hD : OwnNumbers D) (hc : c.Reached t D policy past) :
    c.policy = policy := by
  induction hc with
  | new => rfl
  | @offer c past h key item _ hr hd ih => rw [(offer_spec hD c hr key hd).2.1, policy_answer, ih]

theorem Reached.keyed (hD : OwnNumbers D) (hp : policy.has .keyed = true)
    (hc : c.Reached t D policy past) : c.Keyed := by
  induction hc with
  | new => exact keyed_empty policy
  | @offer c past h key item hc hr hd ih =>
    rw [(offer_spec hD c hr key hd).2.1]
    rw [← hc.policy_eq hD] at hp
    exact ih.answer hp _ key item

/-- **The keys stand in the order of their first offers.** -/
theorem Reached.keys_eq (hD : OwnNumbers D) (hp : policy.has .keyed = true)
    (ho : policy.has .orderedKeys = false) (hc : c.Reached t D policy past) :
    c.groups.map Group.key = (past.map Prod.fst).eraseDups := by
  induction hc with
  | new => rfl
  | @offer c past h key item hc hr hd ih =>
    rw [← hc.policy_eq hD] at hp ho
    rw [(offer_spec hD c hr key hd).2.1, keys_answer hp ho, ih, List.map_append,
      List.map_singleton, eraseDups_concat]

theorem Reached.entries_eq (hD : OwnNumbers D) (hp : policy.has .keyed = true)
    (ho : policy.has .orderedKeys = false) (hc : c.Reached t D policy past) :
    c.entries = (past.map Prod.fst).eraseDups.flatMap c.entriesFor := by
  rw [Cell.entries_eq (hc.keyed hD hp), hc.keys_eq hD hp ho]

end Offers

end Cell

end CategorialChart
