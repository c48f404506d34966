import CategorialChart.Proofs.Cell.Entries
import CategorialChart.Proofs.Fingerprint.Shape

/-! # Cells with another table

`Cell.retake t` takes the fingerprints of all items of a cell again, with the table `t`. A cell that
was used with one table answers as it does with its items taken again, with another table of the
same shape, as long as both tables separate the derivations in question (`answer_retake`). What the
cell shows does not depend on the table (`shown_retake`). -/

namespace CategorialChart

variable {κ σ : Type}

/-- The fingerprints of items, so far as they can be taken. -/
def ContributionTable.marks (t : ContributionTable) (items : List (Item κ σ)) : List Fingerprint :=
  items.filterMap fun x => (t.fingerprint x.derivation).toOption

/-- The group with the fingerprints of its items from a table. -/
def Group.retake (t : ContributionTable) (g : Group κ σ) : Group κ σ :=
  { g with seen := t.marks g.items }

/-- The cell with the fingerprints of its items from a table. -/
def Cell.retake (t : ContributionTable) (c : Cell κ σ) : Cell κ σ :=
  { c with groups := c.groups.map (Group.retake t) }

namespace ContributionTable

variable {t t' : ContributionTable} {P : Set Derivation} {items : List (Item κ σ)}

theorem mem_marks {f : Fingerprint} :
    f ∈ t.marks items ↔ ∃ x ∈ items, t.fingerprint x.derivation = .ok f := by
  unfold marks
  rw [List.mem_filterMap]
  refine exists_congr fun x => and_congr_right fun _ => ?_
  rcases t.fingerprint x.derivation with e | g <;> simp [Except.toOption]

theorem marks_concat {item : Item κ σ} {f : Fingerprint}
    (hf : t.fingerprint item.derivation = .ok f) :
    t.marks (items ++ [item]) = t.marks items ++ [f] := by
  unfold marks
  rw [List.filterMap_append]
  simp [hf, Except.toOption]

/-- **Tables that separate mark alike.** -/
theorem mem_marks_congr (h : t.SameShape t') (hs : t.Separates P) (hs' : t'.Separates P)
    (hP : ∀ x ∈ items, x.derivation ∈ P) {d : Derivation} (hd : d ∈ P) {f f' : Fingerprint}
    (hf : t.fingerprint d = .ok f) (hf' : t'.fingerprint d = .ok f') :
    f ∈ t.marks items ↔ f' ∈ t'.marks items := by
  rw [mem_marks, mem_marks]
  refine exists_congr fun x => and_congr_right fun hx => ?_
  rcases failure_cases (h.fingerprint x.derivation) with ⟨e, h1, h2⟩ | ⟨g, g', h1, h2⟩
  · rw [h1, h2]
    simp
  · rw [hs.eq_iff hd (hP x hx) hf (by rw [h1]; rfl), hs'.eq_iff hd (hP x hx) hf' (by rw [h2]; rfl)]

end ContributionTable

namespace Cell

variable {t t' : ContributionTable} {c c' : Cell κ σ}

theorem eq_of_groups (hp : c.policy = c'.policy) (hg : c.groups = c'.groups)
    (hs : c.stats = c'.stats) : c = c' := by
  cases c
  cases c'
  cases hp
  cases hg
  cases hs
  rfl

/-- What a cell shows: its entries, those of each key, its size and its counters. -/
def shown [DecidableEq κ] (c : Cell κ σ) : List (Item κ σ) × (κ → List (Item κ σ)) × Nat × Stats :=
  (c.entries, c.entriesFor, c.size, c.stats)

theorem entries_retake (t : ContributionTable) (c : Cell κ σ) :
    (c.retake t).entries = c.entries := by
  unfold entries retake
  rw [List.flatMap_map]
  rfl

variable [DecidableEq κ]

theorem groupsFor_retake (t : ContributionTable) (c : Cell κ σ) (key : κ) :
    (c.retake t).groupsFor key = (c.groupsFor key).map (Group.retake t) := by
  unfold groupsFor retake
  rw [List.filter_map]
  rfl

@[simp] theorem entriesFor_retake (t : ContributionTable) (c : Cell κ σ) (key : κ) :
    (c.retake t).entriesFor key = c.entriesFor key := by
  unfold entriesFor
  rw [groupsFor_retake, List.flatMap_map]
  rfl

theorem seenFor_retake (t : ContributionTable) (c : Cell κ σ) (key : κ) :
    (c.retake t).seenFor key = t.marks (c.entriesFor key) := by
  unfold seenFor entriesFor ContributionTable.marks
  rw [groupsFor_retake, List.flatMap_map, List.filterMap_flatMap]
  rfl

theorem shown_retake (t : ContributionTable) (c : Cell κ σ) : (c.retake t).shown = c.shown := by
  unfold shown
  rw [size_eq_length, size_eq_length, entries_retake, funext (entriesFor_retake t c)]
  rfl

variable [Ord κ]

theorem groupsWith_retake (t : ContributionTable) (c : Cell κ σ) (key : κ) :
    (c.retake t).groupsWith key = (c.groupsWith key).map (Group.retake t) := by
  have hinsert : ∀ gs : List (Group κ σ), insertByKey { key := key } (gs.map (Group.retake t)) =
      (insertByKey { key := key } gs).map (Group.retake t) := by
    intro gs
    induction gs with
    | nil => rfl
    | cons g gs ih =>
      have hkey : (g.retake t).key = g.key := rfl
      rw [List.map_cons, insertByKey, insertByKey, ih, hkey]
      split <;> rfl
  have hany : (c.groups.map (Group.retake t)).any (fun g => g.key = key) =
      c.groups.any fun g => g.key = key := by
    rw [List.any_map]
    rfl
  unfold groupsWith retake
  dsimp only
  rw [hany, hinsert]
  split
  · rfl
  · split
    · rfl
    · rw [List.map_append]
      rfl

theorem withGroup_retake (t : ContributionTable) (c : Cell κ σ) (key : κ) :
    (c.retake t).withGroup key = (c.withGroup key).retake t := by
  rw [withGroup, groupsWith_retake]
  rfl

theorem keep_retake (hp : c.policy.has .keyed = true) (key : κ) {item : Item κ σ} {f : Fingerprint}
    (hf : t.fingerprint item.derivation = .ok f) (g : Option Fingerprint) :
    (c.retake t).keep key item (some f) = (c.keep key item g).retake t := by
  have hpush : ∀ gs : List (Group κ σ),
      updateGroup key (Group.push item (some f)) (gs.map (Group.retake t)) =
        (updateGroup key (Group.push item g) gs).map (Group.retake t) := by
    intro gs
    unfold updateGroup
    rw [List.map_map, List.map_map]
    refine List.map_congr_left fun h _ => ?_
    by_cases hk : h.key = key
    · simp [Group.retake, Group.push, hk, ContributionTable.marks_concat hf]
    · simp [Group.retake, hk]
  have hgroups : ((c.retake t).keep key item (some f)).groups =
      ((c.keep key item g).retake t).groups := by
    rw [groups_keep (c := c.retake t) hp, groupsWith_retake, hpush, ← groups_keep hp]
    rfl
  exact eq_of_groups rfl hgroups rfl

variable [LT σ] [DecidableLT σ] [Mul σ]

omit [Ord κ] in
theorem asks_retake (t : ContributionTable) (c : Cell κ σ) (key : κ) (item : Item κ σ) :
    (c.retake t).asks key item = c.asks key item := by
  unfold asks
  rw [entriesFor_retake]
  rfl

omit [Ord κ] in
/-- A cell that takes fingerprints takes one or refuses. -/
theorem asks_or_refuse {limit : Nat} {beam : σ} (hp : c.policy = .nBestHashed limit beam) (key : κ)
    (item : Item κ σ) :
    c.asks key item = true ∨ ∃ why, c.policy.judge (c.entriesFor key) item = .refuse why := by
  have hdedup : c.policy.has .structuralDedup = true := by rw [hp]; rfl
  rcases c.policy.judge_cases (c.entriesFor key) item with hj | ⟨why, -, hj⟩ | ⟨hcky, -⟩
  · left
    unfold asks
    rw [hj, hdedup]
    rfl
  · exact Or.inr ⟨why, hj⟩
  · rw [hp] at hcky
    cases hcky

omit [LT σ] [DecidableLT σ] [Mul σ] in
theorem mem_entries_keep (hp : c.policy.has .keyed = true) {key : κ} {item x : Item κ σ}
    {f : Option Fingerprint} (h : x ∈ (c.keep key item f).entries) : x ∈ c.entries ∨ x = item := by
  rw [← entries_withGroup c key]
  unfold entries at h ⊢
  rw [groups_keep hp, List.mem_flatMap] at h
  obtain ⟨g, hg, hx⟩ := h
  obtain ⟨g', hg', rfl⟩ := List.mem_map.mp hg
  by_cases hk : g'.key = key
  · rw [if_pos hk, Group.push, List.mem_append, List.mem_singleton] at hx
    exact hx.imp_left fun hx => List.mem_flatMap.mpr ⟨g', hg', hx⟩
  · rw [if_neg hk] at hx
    exact Or.inl (List.mem_flatMap.mpr ⟨g', hg', hx⟩)

/-- **The invariant** of a cell that takes fingerprints with a table, and has taken them of
derivations in `P`. -/
structure Marked (t : ContributionTable) (P : Set Derivation) (limit : Nat) (beam : σ)
    (c : Cell κ σ) : Prop where
  policy : c.policy = .nBestHashed limit beam
  retake : c.retake t = c
  mem : ∀ x ∈ c.entries, x.derivation ∈ P

variable {P : Set Derivation} {limit : Nat} {beam : σ}

omit [DecidableEq κ] [Ord κ] [LT σ] [DecidableLT σ] [Mul σ] in
theorem marked_empty (t : ContributionTable) (P : Set Derivation) (limit : Nat) (beam : σ) :
    ({ policy := .nBestHashed limit beam } : Cell κ σ).Marked t P limit beam where
  policy := rfl
  retake := rfl
  mem _ hx := by cases hx

/-- **A cell answers alike with another table** of the same shape, if both tables separate what was
asked for. -/
theorem Marked.answer_retake (hc : c.Marked t P limit beam) (h : t.SameShape t')
    (hs : t.Separates P) (hs' : t'.Separates P) (key : κ) {item : Item κ σ}
    (hd : c.asks key item = true → item.derivation ∈ P) :
    (c.retake t').answer (t'.fingerprint item.derivation) key item =
      ((c.answer (t.fingerprint item.derivation) key item).1,
        (c.answer (t.fingerprint item.derivation) key item).2.retake t') := by
  rcases asks_or_refuse hc.policy key item with hasks | ⟨why, hj⟩
  · have hitem := hd hasks
    have hasks' : (c.retake t').asks key item = true := (asks_retake t' c key item).trans hasks
    obtain ⟨herror, hok⟩ := answer_of_asks hasks
    obtain ⟨herror', hok'⟩ := answer_of_asks hasks'
    rcases failure_cases (h.fingerprint item.derivation) with ⟨e, h1, h2⟩ | ⟨f, f', h1, h2⟩ <;>
      rw [h1, h2]
    · rw [herror, herror', withGroup_retake]
    · have hheld : ∀ x ∈ c.entriesFor key, x.derivation ∈ P :=
        fun x hx => hc.mem x (mem_entries_of_mem hx)
      have hseen : f ∈ c.seenFor key ↔ f' ∈ (c.retake t').seenFor key := by
        have hown := seenFor_retake t c key
        rw [hc.retake] at hown
        rw [hown, seenFor_retake]
        exact ContributionTable.mem_marks_congr h hs hs' hheld hitem h1 h2
      have hkeyed : c.policy.has .keyed = true := by rw [hc.policy]; rfl
      rw [hok, hok']
      by_cases hf : f ∈ c.seenFor key
      · rw [if_pos hf, if_pos (hseen.mp hf)]
        rfl
      · rw [if_neg hf, if_neg (mt hseen.mpr hf), keep_retake hkeyed key h2 (some f)]
  · have hj' : (c.retake t').policy.judge ((c.retake t').entriesFor key) item = .refuse why := by
      rw [entriesFor_retake]
      exact hj
    rw [answer_of_refuse hj, answer_of_refuse hj']
    rfl

theorem Marked.answer (hc : c.Marked t P limit beam) (hs : t.Separates P) (key : κ)
    {item : Item κ σ} (hd : c.asks key item = true → item.derivation ∈ P) :
    (c.answer (t.fingerprint item.derivation) key item).2.Marked t P limit beam := by
  refine ⟨(policy_answer c _ key item).trans hc.policy, ?_, fun x hx => ?_⟩
  · have h := hc.answer_retake ⟨rfl, rfl, rfl⟩ hs hs key hd
    rw [hc.retake] at h
    exact (congrArg Prod.snd h).symm
  have hkeyed : c.policy.has .keyed = true := by rw [hc.policy]; rfl
  rcases asks_or_refuse hc.policy key item with hasks | ⟨why, hj⟩
  · obtain ⟨herror, hok⟩ := answer_of_asks hasks
    rcases hf : t.fingerprint item.derivation with e | f <;> rw [hf] at hx
    · rw [herror] at hx
      exact hc.mem x (by rwa [← entries_withGroup c key])
    rw [hok] at hx
    by_cases hseen : f ∈ c.seenFor key
    · rw [if_pos hseen] at hx
      exact hc.mem x hx
    · rw [if_neg hseen] at hx
      rcases mem_entries_keep hkeyed hx with hx | rfl
      · exact hc.mem x hx
      · exact hd hasks
  · rw [answer_of_refuse hj] at hx
    exact hc.mem x hx

end Cell

end CategorialChart
