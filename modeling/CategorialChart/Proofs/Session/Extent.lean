import CategorialChart.Proofs.Fingerprint.Extent
import CategorialChart.Proofs.Session.Seeding
import CategorialChart.Proofs.Session.Tables

/-! # What the workspaces of a session remember

A workspace shares its hasher with the cells and charts that were made in it. So an action concerns
the hasher of one workspace at most: the one it names, or that in which the cell of an offer was
made (`Session.concerned?`). It clears this hasher, or makes one call of it, or leaves it as it is
(`Session.act_hasher`), and the hashers of all other workspaces as they are.

* `Session.calls`: the calls of the hasher of a workspace since it was last cleared.
* `Session.taken_run`: after any run, each hasher remembers what these calls have completed.
* `Session.extent_of_run`: what that is, and what a further action does to it. -/

namespace CategorialChart

open CategorialChart.Derivation (Occurs OwnNumbers)

variable {κ σ : Type}

/-- Whether the action makes a workspace forget its sentence. -/
def Action.clears : Action κ σ → Bool
  | .newSentence _ | .startSentence _ _ | .makeChart _ _ => true
  | _ => false

namespace Session

/-- The workspace in which the cell at a place was made. -/
def madeIn? (s : Session κ σ) : Place → Option Nat
  | .cell number => s.cells[number]?.map Owned.workspace
  | .span chart _ => s.charts[chart]?.map Owned.workspace

/-- The workspace whose hasher an action may use. -/
def concerned? (s : Session κ σ) : Action κ σ → Option Nat
  | .offer place _ _ => s.madeIn? place
  | a => a.workspace?

section Hashers
variable [DecidableEq κ] [LT σ] [DecidableLT σ] [Mul σ]

/-- The derivation for which an action calls the hasher of a workspace. -/
def call? (s : Session κ σ) (n : Nat) (a : Action κ σ) : Option Derivation :=
  if s.concerned? a = some n then s.asked a else none

/-- What an action makes of the hasher of a workspace. -/
def hasherAfter (s : Session κ σ) (n : Nat) (a : Action κ σ) (h : Hasher) : Hasher :=
  if s.concerned? a = some n ∧ a.clears = true then h.clear
  else
    match s.call? n a with
    | some d => (h.fingerprint d).2
    | none => h

/-- An action that ends a sentence names the workspace that it concerns, and takes no
fingerprint. -/
theorem clears_spec (s : Session κ σ) {a : Action κ σ} (ha : a.clears = true) :
    (∃ m, a.workspace? = some m ∧ s.concerned? a = some m) ∧ s.asked a = none := by
  cases a with
  | newSentence m => exact ⟨⟨m, rfl, rfl⟩, rfl⟩
  | startSentence m length => exact ⟨⟨m, rfl, rfl⟩, rfl⟩
  | makeChart m length => exact ⟨⟨m, rfl, rfl⟩, rfl⟩
  | _ => cases ha

theorem call?_of_asked {s : Session κ σ} {n : Nat} {a : Action κ σ} (h : s.asked a = none) :
    s.call? n a = none := by
  rw [call?, h]
  exact ite_self none

theorem hasherAfter_of_ne {s : Session κ σ} {n : Nat} {a : Action κ σ}
    (h : s.concerned? a ≠ some n) (hasher : Hasher) : s.hasherAfter n a hasher = hasher := by
  rw [hasherAfter, call?, if_neg h, if_neg fun hc => h hc.1]

end Hashers

theorem getElem?_putWorkspace {s : Session κ σ} {n : Nat} {w : Workspace σ}
    (hw : s.workspaces[n]? = some w) (m : Nat) (v : Workspace σ) :
    (s.putWorkspace m v).workspaces[n]? = some (if m = n then v else w) := by
  unfold putWorkspace
  rw [List.getElem?_set]
  split
  · next hm =>
    subst hm
    obtain ⟨hlt, -⟩ := List.getElem?_eq_some_iff.mp hw
    rw [if_pos hlt]
  · exact hw

end Session

theorem Chart.asks_eq [DecidableEq κ] [LT σ] [DecidableLT σ] [Mul σ] (c : Chart κ σ) (span : Span)
    (key : κ) (item : Item κ σ) : c.asks span key item =
      match c.cell span with
      | .ok cell => cell.asks key item
      | .error _ => false := by
  unfold Chart.asks Chart.cell
  by_cases h : span.Within c.length
  · simp only [dif_pos h]
  · simp only [dif_neg h]

namespace Session

variable [DecidableEq κ] [Ord κ] [LT σ] [DecidableLT σ] [Mul σ] {s : Session κ σ} {n : Nat}
  {w : Workspace σ}

/-- An offer to a cell that was made in another workspace. -/
theorem offer_elsewhere (hw : s.workspaces[n]? = some w) {place : Place}
    (hn : s.madeIn? place ≠ some n) (key : κ) (item : Item κ σ) :
    (s.offer key item place).2.workspaces[n]? = some w := by
  cases place with
  | cell k =>
    rw [offer]
    rcases hu : s.cellInUse? k with _ | ⟨c, h⟩
    · exact hw
    obtain ⟨hc, v, hv, rfl⟩ := cellInUse?_eq_some hu
    have hne : c.workspace ≠ n := by simpa [madeIn?, hc] using hn
    dsimp only [putCell]
    rw [putHasher_eq hv, getElem?_putWorkspace hw, if_neg hne]
  | span k span =>
    rw [offer]
    rcases hu : s.chartInUse? k with _ | ⟨c, h⟩
    · exact hw
    obtain ⟨hc, v, hv, rfl⟩ := chartInUse?_eq_some hu
    have hne : c.workspace ≠ n := by simpa [madeIn?, hc] using hn
    dsimp only [putChart]
    rw [putHasher_eq hv, getElem?_putWorkspace hw, if_neg hne]

/-- An offer to a cell that was made in the workspace. -/
theorem offer_here (hw : s.workspaces[n]? = some w) {place : Place}
    (hn : s.madeIn? place = some n) (key : κ) (item : Item κ σ) :
    ∃ w', (s.offer key item place).2.workspaces[n]? = some w' ∧ w'.hasher =
      match s.asked (.offer place key item) with
      | some d => (w.hasher.fingerprint d).2
      | none => w.hasher := by
  cases place with
  | cell k =>
    obtain ⟨c, hc, rfl⟩ := Option.map_eq_some_iff.mp hn
    have hu : s.cellInUse? k = some (c, w.hasher) := by simp [cellInUse?, hc, hw]
    have hasked : s.asked (.offer (.cell k) key item) =
        if c.value.asks key item then some item.derivation else none := by
      simp [asked, cell?, hc]
    rw [offer, hu, hasked]
    dsimp only [putCell]
    rw [Cell.offer_eq, putHasher_eq hw, getElem?_putWorkspace hw, if_pos rfl]
    refine ⟨_, rfl, ?_⟩
    cases c.value.asks key item <;> rfl
  | span k span =>
    obtain ⟨c, hc, rfl⟩ := Option.map_eq_some_iff.mp hn
    have hu : s.chartInUse? k = some (c, w.hasher) := by simp [chartInUse?, hc, hw]
    have hasked : s.asked (.offer (.span k span) key item) =
        if c.value.asks span key item then some item.derivation else none := by
      rw [asked, cell?_span hc, Chart.asks_eq]
      rcases c.value.cell span with e | cell <;> rfl
    rw [offer, hu, hasked]
    dsimp only [putChart]
    rw [Chart.offer_eq, putHasher_eq hw, getElem?_putWorkspace hw, if_pos rfl]
    refine ⟨_, rfl, ?_⟩
    cases c.value.asks span key item <;> rfl

/-- An action that ends a sentence puts the workspace back that it names, also if it fails. -/
theorem act_clears {a : Action κ σ} (ha : a.clears = true) {m : Nat} (hm : a.workspace? = some m) :
    (s.act a).2.workspaces =
      match s.workspaces[m]? with
      | some v => (s.putWorkspace m v.newSentence).workspaces
      | none => s.workspaces := by
  cases a with
  | newSentence m' =>
    obtain rfl : m' = m := Option.some.inj hm
    rw [act]
    rcases s.workspaces[m']? with _ | v <;> rfl
  | startSentence m' length =>
    obtain rfl : m' = m := Option.some.inj hm
    rw [act]
    rcases s.workspaces[m']? with _ | v
    · rfl
    · dsimp only
      rw [v.startSentence_snd length]
  | makeChart m' length =>
    obtain rfl : m' = m := Option.some.inj hm
    rw [act]
    rcases s.workspaces[m']? with _ | v
    · rfl
    · dsimp only
      have hnew := Chart.new_snd (κ := κ) v length
      rcases hc : Chart.new (κ := κ) v length with ⟨e | chart, v'⟩ <;> rw [hc] at hnew <;>
        obtain rfl : v' = v.newSentence := hnew <;> rfl
  | _ => cases ha

theorem clears_hasher (hw : s.workspaces[n]? = some w) {a : Action κ σ} (ha : a.clears = true) :
    ∃ w', (s.act a).2.workspaces[n]? = some w' ∧ w'.hasher = s.hasherAfter n a w.hasher := by
  obtain ⟨⟨m, hm, hconcerned⟩, -⟩ := s.clears_spec ha
  rw [act_clears ha hm]
  by_cases hmn : m = n
  · subst hmn
    rw [hw, hasherAfter, if_pos ⟨hconcerned, ha⟩]
    exact ⟨w.newSentence, by rw [getElem?_putWorkspace hw, if_pos rfl], rfl⟩
  · have hne : s.concerned? a ≠ some n := by
      rw [hconcerned]
      exact fun h => hmn (Option.some.inj h)
    refine ⟨w, ?_, (hasherAfter_of_ne hne w.hasher).symm⟩
    rcases s.workspaces[m]? with _ | v
    · exact hw
    · dsimp only
      rw [getElem?_putWorkspace hw, if_neg hmn]

theorem fingerprint_hasher (hw : s.workspaces[n]? = some w) (m : Nat) (d : Derivation) :
    ∃ w', (s.act (.fingerprint m d)).2.workspaces[n]? = some w' ∧
      w'.hasher = s.hasherAfter n (.fingerprint m d) w.hasher := by
  rw [act]
  by_cases hmn : m = n
  · subst hmn
    have hconcerned : s.concerned? (.fingerprint m d) = some m := rfl
    rw [hasherAfter, if_neg fun h => Bool.false_ne_true h.2, call?, if_pos hconcerned, asked, hw]
    dsimp only
    rw [getElem?_putWorkspace hw, if_pos rfl]
    refine ⟨_, rfl, ?_⟩
    rw [w.hasher_fingerprint d]
    by_cases hp : w.policy.has .structuralDedup = true
    · rw [if_pos hp, if_pos hp]
    · rw [if_neg hp, if_neg hp]
  · have hne : s.concerned? (.fingerprint m d) ≠ some n := fun h => hmn (Option.some.inj h)
    refine ⟨w, ?_, (hasherAfter_of_ne hne w.hasher).symm⟩
    rcases s.workspaces[m]? with _ | v
    · exact hw
    · dsimp only
      rw [getElem?_putWorkspace hw, if_neg hmn]

/-- **What an action does to the hasher of a workspace.** -/
theorem act_hasher (hw : s.workspaces[n]? = some w) (a : Action κ σ) :
    ∃ w', (s.act a).2.workspaces[n]? = some w' ∧ w'.hasher = s.hasherAfter n a w.hasher := by
  by_cases hclears : a.clears = true
  · exact clears_hasher hw hclears
  cases a with
  | fork m =>
    rw [hasherAfter, if_neg fun h => hclears h.2, call?_of_asked rfl, act]
    refine ⟨w, ?_, rfl⟩
    rcases s.workspaces[m]? with _ | v
    · exact hw
    · obtain ⟨hlt, -⟩ := List.getElem?_eq_some_iff.mp hw
      exact (List.getElem?_append_left hlt).trans hw
  | makeCell m =>
    rw [hasherAfter, if_neg fun h => hclears h.2, call?_of_asked rfl, act]
    refine ⟨w, ?_, rfl⟩
    rcases s.workspaces[m]? with _ | v <;> exact hw
  | fingerprint m d => exact fingerprint_hasher hw m d
  | offer place key item =>
    rw [act]
    by_cases hn : s.concerned? (.offer place key item) = some n
    · rw [hasherAfter, if_neg fun h => hclears h.2, call?, if_pos hn]
      exact offer_here hw hn key item
    · rw [hasherAfter_of_ne hn]
      exact ⟨w, offer_elsewhere hw hn key item, rfl⟩
  | newSentence m => exact absurd rfl hclears
  | startSentence m length => exact absurd rfl hclears
  | makeChart m length => exact absurd rfl hclears

/-- An action makes no workspace, or a fork of one. -/
theorem workspaces_act (s : Session κ σ) (a : Action κ σ) :
    (s.act a).2.workspaces.length = s.workspaces.length ∨
      ∃ v ∈ s.workspaces, (s.act a).2.workspaces = s.workspaces ++ [v.fork] := by
  have hstep := s.step_act a
  generalize (s.act a).2 = s' at hstep
  cases hstep with
  | fork hw => exact Or.inr ⟨_, List.mem_of_getElem? hw, rfl⟩
  | offerCell => exact Or.inl (by simp [putCell, putHasher])
  | offerSpan => exact Or.inl (by simp [putChart, putHasher])
  | _ => exact Or.inl (by simp [putWorkspace, addCell, addChart])

/-- A workspace that an action makes is a fork. -/
theorem act_makes (hw : s.workspaces[n]? = none) {a : Action κ σ} {w' : Workspace σ}
    (hw' : (s.act a).2.workspaces[n]? = some w') : ∃ v ∈ s.workspaces, w' = v.fork := by
  rw [List.getElem?_eq_none_iff] at hw
  rcases s.workspaces_act a with hlength | ⟨v, hv, he⟩
  · rw [List.getElem?_eq_none (by omega)] at hw'
    cases hw'
  · rw [he, List.getElem?_append_right hw] at hw'
    exact ⟨v, hv, List.mem_singleton.mp (List.mem_of_getElem? hw')⟩

/-! ### Calls -/

/-- The calls of the hasher of a workspace since it was last cleared, after a further action. -/
def callsAfter (s : Session κ σ) (n : Nat) (past : List Derivation) (a : Action κ σ) :
    List Derivation :=
  if s.concerned? a = some n ∧ a.clears = true then [] else past ++ (s.call? n a).toList

/-- **The calls of the hasher of a workspace** since it was last cleared, after a run. -/
def calls (n : Nat) : Session κ σ → List Derivation → List (Action κ σ) → List Derivation
  | _, past, [] => past
  | s, past, a :: as => calls n (s.act a).2 (s.callsAfter n past a) as

theorem calls_concat (n : Nat) (a : Action κ σ) : ∀ (as : List (Action κ σ)) (s : Session κ σ)
    (past : List Derivation), calls n s past (as ++ [a]) =
      (s.run as).2.callsAfter n (calls n s past as) a
  | [], _, _ => rfl
  | b :: as, s, past => calls_concat n a as (s.act b).2 (s.callsAfter n past b)

variable {t : ContributionTable} {D : Set Derivation} {policy : Policy σ} {past : List Derivation}
  {a : Action κ σ}

omit [Ord κ] in
theorem call?_mem {d : Derivation} (hd : s.call? n a = some d)
    (ha : ∀ d ∈ a.derivation?, d ∈ D) : d ∈ D := by
  rw [call?] at hd
  split at hd
  · exact ha d (derivation?_of_asked hd)
  · cases hd

omit [Ord κ] in
/-- There are no calls of the hasher of a workspace that has not been made. -/
theorem Ran.call?_eq_none (hs : s.Ran t D policy) (hw : s.workspaces[n]? = none) :
    s.call? n a = none := by
  have hlength : s.workspaces.length ≤ n := List.getElem?_eq_none_iff.mp hw
  have hmade : ∀ place, s.madeIn? place ≠ some n := by
    intro place hn
    cases place with
    | cell k =>
      obtain ⟨c, hc, rfl⟩ := Option.map_eq_some_iff.mp hn
      have := hs.follows.cells c (List.mem_of_getElem? hc)
      omega
    | span k span =>
      obtain ⟨c, hc, rfl⟩ := Option.map_eq_some_iff.mp hn
      have := hs.follows.charts c (List.mem_of_getElem? hc)
      omega
  rw [call?]
  split
  · next hn =>
    cases a with
    | offer place key item => exact absurd hn (hmade place)
    | fingerprint m d =>
      obtain rfl : m = n := Option.some.inj hn
      rw [asked, hw]
    | _ => rfl
  · rfl

/-- The hasher of a workspace remembers what its calls have completed. There are none if it has not
been made. -/
def TakenAt (t : ContributionTable) (D : Set Derivation) (n : Nat) (past : List Derivation)
    (s : Session κ σ) : Prop :=
  match s.workspaces[n]? with
  | some w => w.hasher.Taken t D past
  | none => past = []

theorem TakenAt.act (hD : OwnNumbers D) (hs : s.Ran t D policy) (h : s.TakenAt t D n past)
    (ha : ∀ d ∈ a.derivation?, d ∈ D) : (s.act a).2.TakenAt t D n (s.callsAfter n past a) := by
  unfold TakenAt at h ⊢
  rcases hw : s.workspaces[n]? with _ | w <;> rw [hw] at h
  · have hnone : s.callsAfter n past a = [] := by
      rw [callsAfter, h, hs.call?_eq_none hw]
      exact ite_self []
    rw [hnone]
    rcases hw' : (s.act a).2.workspaces[n]? with _ | w'
    · rfl
    · obtain ⟨v, hv, rfl⟩ := act_makes hw hw'
      dsimp only [Workspace.fork]
      rw [(hs.inUse v hv).table_eq]
      exact Hasher.taken_new
  · obtain ⟨w', hw', hhasher⟩ := act_hasher hw a
    rw [hw']
    dsimp only at h ⊢
    rw [hhasher, hasherAfter, callsAfter]
    split
    · exact h.clear
    rcases hcall : s.call? n a with _ | d
    · rw [Option.toList_none, List.append_nil]
      exact h
    · exact h.fingerprint hD (call?_mem hcall ha)

/-- **After any run**, each hasher remembers what its calls have completed since it was last
cleared. -/
theorem taken_run (policy : Policy σ) (t : ContributionTable) (hD : OwnNumbers D) (n : Nat)
    (as : List (Action κ σ)) (has : Action.derivations as ⊆ D) :
    ((start policy t).run as).2.TakenAt t D n (calls n (start policy t) [] as) := by
  induction as using List.reverseRecOn with
  | nil =>
    unfold TakenAt
    rcases n with _ | n
    · exact Hasher.taken_new
    · rfl
  | append_singleton as a ih =>
    rw [Action.derivations_append, Set.union_subset_iff] at has
    rw [run_append, calls_concat]
    have hs := (ran_start policy t).run has.1
    exact (ih has.1).act hD hs (Action.derivations_cons_subset has.2).1

/-! ### What a further action does -/

/-- A call fails exactly if the action that makes it fails for want of the fingerprint. -/
theorem Ran.act_call (hD : OwnNumbers D) (hs : s.Ran t D policy) {d : Derivation}
    (hcall : s.call? n a = some d) (ha : ∀ d ∈ a.derivation?, d ∈ D) (e : TermError) :
    (s.act a).1 = .failed (.fingerprint e) ↔ t.fingerprint d = .error e := by
  have hd : d ∈ D := call?_mem hcall ha
  have hasked : s.asked a = some d := by
    rw [call?] at hcall
    split at hcall
    · exact hcall
    · cases hcall
  cases a with
  | fingerprint m d' =>
    rw [asked] at hasked
    rcases hw : s.workspaces[m]? with _ | v <;> rw [hw] at hasked
    · cases hasked
    dsimp only at hasked
    split at hasked
    · next hp =>
      obtain rfl := Option.some.inj hasked
      rw [(hs.workspace hw).1] at hp
      obtain ⟨hm, -⟩ := List.getElem?_eq_some_iff.mp hw
      rw [hs.act_fingerprint hD hp hm hd]
      rcases t.fingerprint d' with e' | f <;> simp [Reply.of, Except.mapError]
    · cases hasked
  | offer place key item =>
    rw [asked] at hasked
    rcases hc : s.cell? place with _ | e' | c <;> rw [hc] at hasked
    · cases hasked
    · cases hasked
    dsimp only at hasked
    split at hasked
    · next hasks =>
      obtain rfl := Option.some.inj hasked
      obtain ⟨h, hr, hreply⟩ := hs.act_offer hc key item
      rw [hreply, hr.fingerprint_eq hD hd]
      obtain ⟨herror, hok⟩ := Cell.answer_of_asks hasks
      rcases t.fingerprint item.derivation with e' | f
      · rw [herror]
        simp [Reply.of, Except.mapError]
      · rw [hok]
        split <;> simp [Reply.of, Except.mapError]
    · cases hasked
  | _ => cases hasked

omit [Ord κ] in
/-- Offers that the policy refuses, and those to cells of a policy that takes no fingerprints, make
no call. -/
theorem Ran.call?_offer (hs : s.Ran t D policy) {place : Place} {key : κ} {item : Item κ σ}
    (h : policy.has .structuralDedup = false ∨ ∃ c why, s.cell? place = some (.ok c) ∧
      c.policy.judge (c.entriesFor key) item = .refuse why) :
    s.call? n (.offer place key item) = none := by
  refine call?_of_asked ?_
  rw [asked]
  rcases hc : s.cell? place with _ | e | c
  · rfl
  · rfl
  have hasks : c.asks key item = false := by
    unfold Cell.asks
    rcases h with hp | ⟨c', why, hc', hj⟩
    · rw [hs.follows.policy_eq hc, hp, Bool.false_and]
    · rw [hc] at hc'
      cases hc'
      rw [hj]
      exact Bool.and_false _
  simp [hasks]

/-- **The extent of what is remembered.** After any run, failures included, the hasher of each
workspace remembers all nodes of the derivations for which its calls have returned since it was last
cleared, those of the trees that were complete when its other calls failed, and nothing else
(`Hasher.Extent`). A further action can clear it, also if the action fails. A call that returns
raises the number of nodes by those of its derivation that were not remembered. What an action does
in another workspace leaves the hasher as it is, and so does an offer that the policy refuses, or
one to a cell of a policy that takes no fingerprints. To seed a chart is a run of offers, so all
this is true where charts are seeded as well. -/
theorem extent_of_run (policy : Policy σ) (t : ContributionTable) (hD : OwnNumbers D)
    {as : List (Action κ σ)} (has : Action.derivations as ⊆ D)
    (hw : ((start policy t).run as).2.workspaces[n]? = some w) :
    let s : Session κ σ := ((start policy t).run as).2
    w.hasher.Extent t D (calls n (start policy t) [] as) ∧
      (∀ a : Action κ σ, (∀ d ∈ a.derivation?, d ∈ D) →
        ∃ w', (s.act a).2.workspaces[n]? = some w' ∧
          (s.concerned? a = some n → a.clears = true → w'.hasher.cached = 0) ∧
          (∀ d, s.call? n a = some d →
            (∀ e, (s.act a).1 = .failed (.fingerprint e) ↔ t.fingerprint d = .error e) ∧
            ∀ f, t.fingerprint d = .ok f → (w'.hasher.cached : ℕ∞) =
              w.hasher.cached + {b | Occurs b d ∧ b.id ∉ w.hasher.cache}.encard) ∧
          (s.concerned? a ≠ some n → w'.hasher = w.hasher) ∧
          ∀ place key item, a = .offer place key item →
            (policy.has .structuralDedup = false ∨ ∃ c why, s.cell? place = some (.ok c) ∧
              c.policy.judge (c.entriesFor key) item = .refuse why) → w'.hasher = w.hasher) ∧
      ∀ (S : Type) (number : Nat) (tags : List (List (ScoredCategory σ)))
        (make : Nat → ScoredCategory σ → StateM S (Item κ σ)) (st : S),
        ∃ offers, offers <+: Chart.made make (Chart.candidates 0 tags) st ∧
          (s.seed number tags make st).1.2 =
            ((start policy t).run (as ++ offersTo number offers)).2 := by
  intro s
  have htaken := taken_run policy t hD n as has
  rw [TakenAt, hw] at htaken
  have hs : s.Ran t D policy := (ran_start policy t).run has
  refine ⟨htaken.extent hD, fun a ha => ?_, fun S number tags make st => ?_⟩
  · obtain ⟨w', hw', hhasher⟩ := act_hasher hw a
    refine ⟨w', hw', fun hn hclears => ?_,
      fun d hcall => ⟨hs.act_call hD hcall ha, fun f hf => ?_⟩, fun hn => ?_, ?_⟩
    · rw [hhasher, hasherAfter, if_pos ⟨hn, hclears⟩]
      rfl
    · have hclears : ¬ (s.concerned? a = some n ∧ a.clears = true) := by
        rintro ⟨-, hclears⟩
        cases (call?_of_asked (s.clears_spec hclears).2).symm.trans hcall
      rw [hhasher, hasherAfter, if_neg hclears, hcall]
      exact htaken.cached_fingerprint hD (call?_mem hcall ha) hf
    · rw [hhasher, hasherAfter_of_ne hn]
    · rintro place key item rfl hrefused
      rw [hhasher, hasherAfter, if_neg fun h => Bool.false_ne_true h.2, hs.call?_offer hrefused]
  · obtain ⟨offers, hoffers, hseed⟩ := seed_eq_run s number tags make st
    exact ⟨offers, hoffers, hseed.trans (run_append (offersTo number offers) as _).symm⟩

end Session

namespace Forest

theorem breaks_broken : table.Breaks (.noSlab ⟨phrase, 1⟩) broken [broken, stray] [once] := by
  have hbefore : ∀ b ∈ [once], ∃ f, table.fingerprint b = .ok f :=
    List.forall_mem_singleton.mpr ⟨_, rfl⟩
  exact .inChild rfl rfl hbefore (.here rfl)

theorem occurs_leaf {a d : Derivation} (hd : d.children = []) : Occurs a d ↔ a = d := by
  rw [Derivation.occurs_iff, hd]
  simp

theorem occurs_broken {a : Derivation} : Occurs a broken ↔ a = broken ∨ a = once ∨ a = stray := by
  have hchildren : broken.children = [once, stray] := rfl
  rw [Derivation.occurs_iff, hchildren]
  simp [occurs_leaf (d := once) rfl, occurs_leaf (d := stray) rfl]

theorem occurs_raised {a : Derivation} : Occurs a raised ↔ a = raised ∨ a = once := by
  have hchildren : raised.children = [once] := rfl
  rw [Derivation.occurs_iff, hchildren]
  simp [occurs_leaf (d := once) rfl]

end Forest

open Forest in
/-- A call fails, and the node that it has completed is remembered. The next call finds it there. -/
theorem Session.extent_of_run_forest :
    ∃ w : Workspace Nat, ((start (.nBestHashed 1 1) table : Session Nat Nat).run
        [.fingerprint 0 broken]).2.workspaces[0]? = some w ∧
      once.id ∈ w.hasher.cache ∧ broken.id ∉ w.hasher.cache ∧ stray.id ∉ w.hasher.cache ∧
      ∃ w' : Workspace Nat, (((start (.nBestHashed 1 1) table : Session Nat Nat).run
          [.fingerprint 0 broken]).2.act (.fingerprint 0 raised)).2.workspaces[0]? = some w' ∧
        w'.hasher.cached = w.hasher.cached + 1 := by
  have has : Action.derivations [(.fingerprint 0 broken : Action Nat Nat)] ⊆ trees := by
    simp [Action.derivations, Action.derivation?, trees]
  obtain ⟨w, hw, -⟩ := act_hasher (n := 0) (s := (start (.nBestHashed 1 1) table : Session Nat Nat))
    rfl (.fingerprint 0 broken)
  have hw' : ((start (.nBestHashed 1 1) table : Session Nat Nat).run
      [.fingerprint 0 broken]).2.workspaces[0]? = some w := hw
  obtain ⟨hextent, hact, -⟩ := extent_of_run (.nBestHashed 1 1) table own_trees has hw'
  have hcalls : broken ∈ calls 0 (start (.nBestHashed 1 1) table : Session Nat Nat) []
      [.fingerprint 0 broken] := List.mem_singleton_self broken
  have hpath := hextent.path broken hcalls _ _ _ breaks_broken
  have honce : once.id ∈ w.hasher.cache := (hextent.mem once.id).mpr
    ⟨broken, hcalls, once, rfl, Or.inr ⟨_, _, _, breaks_broken, once, by simp, .root⟩⟩
  have hraised : raised.id ∉ w.hasher.cache := by
    intro hid
    obtain ⟨d, hd, a, ha, hcompleted⟩ := (hextent.mem raised.id).mp hid
    obtain rfl : d = broken := List.mem_singleton.mp hd
    have hin := occurs_broken.mp (ContributionTable.completed_spec
      (Hasher.mem_completed_iff.mpr hcompleted)).1
    rcases hin with rfl | rfl | rfl <;> cases ha
  refine ⟨w, hw', honce, hpath broken (by simp), hpath stray (by simp), ?_⟩
  obtain ⟨w', hafter, -, hcall, -⟩ := hact (.fingerprint 0 raised) (by
    simp [Action.derivation?, trees])
  refine ⟨w', hafter, ?_⟩
  obtain ⟨-, hcached⟩ := hcall raised rfl
  have hnew : {b | Occurs b raised ∧ b.id ∉ w.hasher.cache} = {raised} := by
    ext b
    rw [Set.mem_ofPred_eq, occurs_raised, Set.mem_singleton_iff]
    constructor
    · rintro ⟨rfl | rfl, hb⟩
      · rfl
      · exact absurd honce hb
    · rintro rfl
      exact ⟨Or.inl rfl, hraised⟩
  have := hcached _ rfl
  rw [hnew, Set.encard_singleton] at this
  exact_mod_cast this

end CategorialChart
