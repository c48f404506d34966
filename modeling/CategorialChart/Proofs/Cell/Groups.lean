import CategorialChart.Cell.Basic
import Mathlib.Data.List.Nodup

/-! # The groups of a cell

A cell that keeps its items by keys has at most one group for a key (`Keyed`), so it is known from
the group of each key (`group`), which is empty for the keys that were never offered. Each change
of a cell changes the group of one key:

* `group_keep`: an item that is kept goes to the end of the group of its key.
* `group_replace`: an item that replaces another is alone in its group.
* `group_withGroup`: where a key is seen for the first time, its empty group says nothing new.

`entriesFor_eq` and `seenFor_eq` read the items and the fingerprints of a key off its group. -/

namespace CategorialChart.Cell

variable {κ σ : Type}

/-- No two groups have the same key. -/
def Keyed (c : Cell κ σ) : Prop := (c.groups.map Group.key).Nodup

theorem keyed_empty (policy : Policy σ) : ({ policy := policy } : Cell κ σ).Keyed :=
  List.nodup_nil

theorem Keyed.refuse {c : Cell κ σ} (hc : c.Keyed) (why : Refusal) : (c.refuse why).Keyed := hc

theorem insertByKey_eq [Ord κ] (g : Group κ σ) : ∀ gs : List (Group κ σ),
    ∃ l r, gs = l ++ r ∧ insertByKey g gs = l ++ g :: r
  | [] => ⟨[], [], rfl, rfl⟩
  | h :: hs => by
    rw [insertByKey]
    split
    · exact ⟨[], h :: hs, rfl, rfl⟩
    · obtain ⟨l, r, h1, h2⟩ := insertByKey_eq g hs
      exact ⟨h :: l, r, by rw [h1]; rfl, by rw [h2]; rfl⟩

section Groups
variable [DecidableEq κ]

/-- **The group of a key**, an empty one if the key was never offered. -/
def group (c : Cell κ σ) (k : κ) : Group κ σ := (c.groupsFor k).headD { key := k }

/-- The cell in which a key has been seen. -/
def withGroup [Ord κ] (c : Cell κ σ) (key : κ) : Cell κ σ := { c with groups := c.groupsWith key }

/-! ### Lists of groups -/

theorem filter_key_eq_nil {gs : List (Group κ σ)} {k : κ} (h : k ∉ gs.map Group.key) :
    gs.filter (fun g => g.key = k) = [] := by
  rw [List.filter_eq_nil_iff]
  intro g hg hgk
  exact h (List.mem_map.mpr ⟨g, hg, by simpa using hgk⟩)

/-- A key that has a group has one. -/
theorem filter_key_eq_singleton : ∀ {gs : List (Group κ σ)} {k : κ}, (gs.map Group.key).Nodup →
    k ∈ gs.map Group.key → ∃ g, gs.filter (fun g => g.key = k) = [g]
  | [], k, _, h => by simp at h
  | g :: gs, k, hn, h => by
    rw [List.map_cons, List.nodup_cons] at hn
    by_cases hg : g.key = k
    · refine ⟨g, ?_⟩
      rw [List.filter_cons, if_pos (by simpa using hg), filter_key_eq_nil (hg ▸ hn.1)]
    · rw [List.filter_cons, if_neg (by simpa using hg)]
      refine filter_key_eq_singleton hn.2 ?_
      rw [List.map_cons, List.mem_cons] at h
      exact h.resolve_left (Ne.symm hg)

theorem filter_updateGroup {f : Group κ σ → Group κ σ} (hf : ∀ g, (f g).key = g.key) (key k : κ)
    (gs : List (Group κ σ)) :
    (updateGroup key f gs).filter (fun g => g.key = k) =
      if k = key then (gs.filter fun g => g.key = k).map f
      else gs.filter fun g => g.key = k := by
  induction gs with
  | nil => simp [updateGroup]
  | cons g gs ih =>
    rw [updateGroup, List.map_cons, ← updateGroup, List.filter_cons, ih]
    by_cases hk : k = key
    · subst hk
      by_cases hg : g.key = k <;> simp [hg, hf]
    · by_cases hg : g.key = key
      · have hgk : g.key ≠ k := fun h => hk (h.symm.trans hg)
        simp [hk, hg, hf, Ne.symm hk]
      · simp [hk, hg, List.filter_cons]

theorem keys_updateGroup {f : Group κ σ → Group κ σ} (hf : ∀ g, (f g).key = g.key) (key : κ)
    (gs : List (Group κ σ)) :
    (updateGroup key f gs).map Group.key = gs.map Group.key := by
  rw [updateGroup, List.map_map]
  refine List.map_congr_left fun g _ => ?_
  by_cases hg : g.key = key
  · simp [hg, hf]
  · simp [hg]

/-- The groups with one for a key: the same groups, or an empty one somewhere among them. -/
theorem groupsWith_cases [Ord κ] (c : Cell κ σ) (key : κ) :
    (key ∈ c.groups.map Group.key ∧ c.groupsWith key = c.groups) ∨
      (key ∉ c.groups.map Group.key ∧ ∃ l r, c.groups = l ++ r ∧
        c.groupsWith key = l ++ { key := key } :: r) := by
  have hmem : (c.groups.any fun g => g.key = key) = true ↔ key ∈ c.groups.map Group.key := by
    simp
  unfold groupsWith
  by_cases h : key ∈ c.groups.map Group.key
  · rw [if_pos (hmem.mpr h)]
    exact Or.inl ⟨h, rfl⟩
  · rw [if_neg (fun hn => h (hmem.mp hn))]
    refine Or.inr ⟨h, ?_⟩
    split
    · exact insertByKey_eq _ c.groups
    · exact ⟨c.groups, [], by simp, rfl⟩

/-! ### The group of a key -/

variable {c : Cell κ σ}

theorem groupsFor_cases (hc : c.Keyed) (k : κ) :
    c.groupsFor k = [] ∨ ∃ g, c.groupsFor k = [g] := by
  by_cases h : k ∈ c.groups.map Group.key
  · exact Or.inr (filter_key_eq_singleton hc h)
  · exact Or.inl (filter_key_eq_nil h)

theorem entriesFor_eq (hc : c.Keyed) (k : κ) : c.entriesFor k = (c.group k).items := by
  unfold entriesFor group
  rcases groupsFor_cases hc k with h | ⟨g, h⟩ <;> simp [h]

theorem seenFor_eq (hc : c.Keyed) (k : κ) : c.seenFor k = (c.group k).seen := by
  unfold seenFor group
  rcases groupsFor_cases hc k with h | ⟨g, h⟩ <;> simp [h]

@[simp] theorem group_empty (policy : Policy σ) (k : κ) :
    ({ policy := policy } : Cell κ σ).group k = { key := k } := rfl

@[simp] theorem group_refuse (why : Refusal) (k : κ) : (c.refuse why).group k = c.group k := rfl

/-- What a change to the group of one key does to the groups of all keys. -/
theorem group_update (hc : c.Keyed) {f : Group κ σ → Group κ σ} (hf : ∀ g, (f g).key = g.key)
    {key : κ} (hkey : key ∈ c.groups.map Group.key) (k : κ) :
    ((updateGroup key f c.groups).filter fun g => g.key = k).headD { key := k } =
      if k = key then f (c.group key) else c.group k := by
  rw [filter_updateGroup hf]
  by_cases hk : k = key
  · obtain ⟨g, hg⟩ := filter_key_eq_singleton hc hkey
    subst hk
    rw [if_pos rfl, if_pos rfl, group, groupsFor, hg]
    rfl
  · rw [if_neg hk, if_neg hk]
    rfl

theorem Keyed.replace (hc : c.Keyed) (key : κ) (item : Item κ σ) : (c.replace key item).Keyed := by
  have h := keys_updateGroup (f := fun g : Group κ σ => { g with items := [item] })
    (fun _ => rfl) key c.groups
  rw [Keyed, Cell.replace, h]
  exact hc

/-- An item that takes the place of another is alone in its group. -/
theorem group_replace (hc : c.Keyed) {key : κ} (hkey : key ∈ c.groups.map Group.key)
    (item : Item κ σ) (k : κ) :
    (c.replace key item).group k =
      if k = key then { c.group key with items := [item] } else c.group k :=
  group_update hc (f := fun g => { g with items := [item] }) (fun _ => rfl) hkey k

section Ordered
variable [Ord κ]

theorem keys_groupsWith (c : Cell κ σ) (key : κ) : key ∈ (c.groupsWith key).map Group.key := by
  rcases groupsWith_cases c key with ⟨h, he⟩ | ⟨-, l, r, -, he⟩
  · rw [he]; exact h
  · rw [he]; simp

theorem withGroup_of_mem {key : κ} (h : key ∈ c.groups.map Group.key) : c.withGroup key = c := by
  unfold Cell.withGroup
  rcases groupsWith_cases c key with ⟨-, he⟩ | ⟨hn, -⟩
  · rw [he]
  · exact absurd h hn

theorem Keyed.withGroup (hc : c.Keyed) (key : κ) : (c.withGroup key).Keyed := by
  unfold Keyed Cell.withGroup
  rcases groupsWith_cases c key with ⟨-, he⟩ | ⟨h, l, r, hg, he⟩
  · rw [he]; exact hc
  · rw [Keyed, hg] at hc
    rw [hg] at h
    rw [he, List.map_append, List.map_cons, List.nodup_middle, List.nodup_cons]
    rw [List.map_append] at hc h
    exact ⟨h, hc⟩

theorem group_withGroup (c : Cell κ σ) (key k : κ) : (c.withGroup key).group k = c.group k := by
  unfold group groupsFor Cell.withGroup
  rcases groupsWith_cases c key with ⟨-, he⟩ | ⟨h, l, r, hg, he⟩
  · rw [he]
  · rw [he, hg]
    by_cases hk : key = k
    · subst hk
      rw [← hg, filter_key_eq_nil h]
      rw [hg, List.map_append, List.mem_append, not_or] at h
      rw [List.filter_append, filter_key_eq_nil h.1]
      simp
    · simp [hk]

theorem groups_keep (hp : c.policy.has .keyed = true) (key : κ) (item : Item κ σ)
    (f : Option Fingerprint) :
    (c.keep key item f).groups = updateGroup key (Group.push item f) (c.groupsWith key) := by
  unfold keep
  cases hpol : c.policy with
  | unbounded =>
    rw [hpol] at hp
    cases hp
  | _ => rfl

theorem Keyed.keep (hc : c.Keyed) (hp : c.policy.has .keyed = true) (key : κ) (item : Item κ σ)
    (f : Option Fingerprint) : (c.keep key item f).Keyed := by
  rw [Keyed, groups_keep hp, keys_updateGroup (f := Group.push item f) fun _ => rfl]
  exact hc.withGroup key

/-- An item that is kept goes to the end of the group of its key. -/
theorem group_keep (hc : c.Keyed) (hp : c.policy.has .keyed = true) (key : κ) (item : Item κ σ)
    (f : Option Fingerprint) (k : κ) :
    (c.keep key item f).group k = if k = key then (c.group key).push item f else c.group k := by
  have h := group_update (hc.withGroup key) (f := Group.push item f) (fun _ => rfl)
    (keys_groupsWith c key) k
  rw [group_withGroup, group_withGroup] at h
  rw [← h, group, groupsFor, groups_keep hp]
  rfl

end Ordered

end Groups

end CategorialChart.Cell
