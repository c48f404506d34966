import CategorialChart.Proofs.Fingerprint.Memory
import Mathlib.Data.List.Basic

/-! # How far a walk comes

A walk takes the terms of a node and then the trees below it, from left to right. It breaks at the
first node with a term that has no contribution. By then it has completed the trees to the left of
its path to this node, and no other tree.

* `ContributionTable.Breaks`: the path on which a walk breaks, and the trees that it has completed.
  `fingerprint_error_iff`: the walks that fail are those that break.
* `ContributionTable.completed`: the nodes that a walk completes, by recursion on the tree. They are
  all nodes if the walk succeeds (`completed_of_ok`), and else those of the trees that it has
  completed when it breaks (`completed_of_breaks`). -/

namespace CategorialChart

open CategorialChart.Derivation (Occurs nodes)

variable {t : ContributionTable} {e : TermError}

theorem Derivation.Occurs.fingerprint_ok {a d : Derivation} (h : Occurs a d)
    (hd : ∃ f, t.fingerprint d = .ok f) : ∃ f, t.fingerprint a = .ok f := by
  induction h with
  | root => exact hd
  | inChild hm _ ih => exact ih ((ContributionTable.fingerprint_ok.mp hd).2 _ hm)

namespace ContributionTable

/-- **The walk breaks** below the first node of `path`, at the last one. The trees in `done` are
completed by then: the children to the left of the path, for each node on it. -/
inductive Breaks (t : ContributionTable) (e : TermError) :
    Derivation → List Derivation → List Derivation → Prop
  | here {d : Derivation} : t.sum d.ownTerms = .error e → Breaks t e d [d] []
  | inChild {d c : Derivation} {own : Fingerprint} {before after path done : List Derivation} :
      t.sum d.ownTerms = .ok own → d.children = before ++ c :: after →
        (∀ b ∈ before, ∃ f, t.fingerprint b = .ok f) → Breaks t e c path done →
          Breaks t e d (d :: path) (before ++ done)

/-! ### Walks that fail -/

theorem fingerprintAll_error {c : Derivation} {after : List Derivation}
    (hc : t.fingerprint c = .error e) : ∀ {before : List Derivation},
      (∀ b ∈ before, ∃ f, t.fingerprint b = .ok f) →
        t.fingerprintAll (before ++ c :: after) = .error e
  | [], _ => by
    rw [List.nil_append, fingerprintAll, hc]
    rfl
  | b :: before, hb => by
    obtain ⟨⟨f, hf⟩, hrest⟩ := List.forall_mem_cons.mp hb
    rw [List.cons_append, fingerprintAll, hf, fingerprintAll_error hc hrest]
    rfl

namespace Breaks

variable {d : Derivation} {path done : List Derivation}

theorem fingerprint (h : Breaks t e d path done) : t.fingerprint d = .error e := by
  induction h with
  | @here d hown =>
    obtain ⟨id, category, children, dependencies⟩ := d
    rw [ContributionTable.fingerprint, hown]
    rfl
  | @inChild d c own before after path done hown hchildren hbefore _ ih =>
    obtain ⟨id, category, children, dependencies⟩ := d
    obtain rfl : children = before ++ c :: after := hchildren
    rw [ContributionTable.fingerprint, hown, fingerprintAll_error ih hbefore]
    rfl

/-- No node on the path is completed. -/
theorem path_error (h : Breaks t e d path done) : ∀ a ∈ path, t.fingerprint a = .error e := by
  induction h with
  | here hown => exact List.forall_mem_singleton.mpr (Breaks.here hown).fingerprint
  | inChild hown hchildren hbefore hc ih =>
    exact List.forall_mem_cons.mpr ⟨(Breaks.inChild hown hchildren hbefore hc).fingerprint, ih⟩

theorem occurs_path (h : Breaks t e d path done) : ∀ a ∈ path, Occurs a d := by
  induction h with
  | here _ => exact List.forall_mem_singleton.mpr .root
  | @inChild d c own before after path done _ hchildren _ _ ih =>
    refine List.forall_mem_cons.mpr ⟨.root, fun a ha => .inChild ?_ (ih a ha)⟩
    rw [hchildren]
    exact List.mem_append_right before List.mem_cons_self

theorem done_ok (h : Breaks t e d path done) : ∀ b ∈ done, ∃ f, t.fingerprint b = .ok f := by
  induction h with
  | here _ => exact fun b hb => absurd hb List.not_mem_nil
  | inChild _ _ hbefore _ ih =>
    intro b hb
    rcases List.mem_append.mp hb with hb | hb
    · exact hbefore b hb
    · exact ih b hb

theorem occurs_done (h : Breaks t e d path done) : ∀ b ∈ done, Occurs b d := by
  induction h with
  | here _ => exact fun b hb => absurd hb List.not_mem_nil
  | @inChild d c own before after path done _ hchildren _ _ ih =>
    intro b hb
    rcases List.mem_append.mp hb with hb | hb
    · exact .inChild (by rw [hchildren]; exact List.mem_append_left _ hb) .root
    · exact .inChild (by rw [hchildren]; exact List.mem_append_right before List.mem_cons_self)
        (ih b hb)

end Breaks

mutual

theorem breaks_of_error : ∀ d : Derivation, t.fingerprint d = .error e →
    ∃ path done, Breaks t e d path done
  | ⟨id, category, children, dependencies⟩, h => by
    rw [fingerprint] at h
    rcases hown : t.sum (Derivation.ownTerms ⟨id, category, children, dependencies⟩) with e' | own
    · rw [hown] at h
      cases h
      exact ⟨_, _, .here hown⟩
    rcases hbelow : t.fingerprintAll children with e' | below
    · rw [hown, hbelow] at h
      cases h
      obtain ⟨before, c, after, path, done, hchildren, hbefore, hc⟩ :=
        breaksAll_of_error children hbelow
      exact ⟨_, _, .inChild hown hchildren hbefore hc⟩
    · rw [hown, hbelow] at h
      cases h

theorem breaksAll_of_error : ∀ ds : List Derivation, t.fingerprintAll ds = .error e →
    ∃ before c after path done, ds = before ++ c :: after ∧
      (∀ b ∈ before, ∃ f, t.fingerprint b = .ok f) ∧ Breaks t e c path done
  | [], h => by
    rw [fingerprintAll] at h
    cases h
  | d :: ds, h => by
    rw [fingerprintAll] at h
    rcases hfirst : t.fingerprint d with e' | first
    · rw [hfirst] at h
      cases h
      obtain ⟨path, done, hd⟩ := breaks_of_error d hfirst
      exact ⟨[], d, ds, path, done, rfl, by simp, hd⟩
    rcases hothers : t.fingerprintAll ds with e' | others
    · rw [hfirst, hothers] at h
      cases h
      obtain ⟨before, c, after, path, done, rfl, hbefore, hc⟩ := breaksAll_of_error ds hothers
      exact ⟨d :: before, c, after, path, done, rfl,
        List.forall_mem_cons.mpr ⟨⟨first, hfirst⟩, hbefore⟩, hc⟩
    · rw [hfirst, hothers] at h
      cases h

end

/-- **The walks that fail** are those that break. -/
theorem fingerprint_error_iff {d : Derivation} :
    t.fingerprint d = .error e ↔ ∃ path done, Breaks t e d path done :=
  ⟨breaks_of_error d, fun ⟨_, _, h⟩ => h.fingerprint⟩

/-! ### What a walk completes -/

mutual

/-- The nodes that a walk completes. -/
def completed (t : ContributionTable) : Derivation → Set Derivation
  | ⟨id, category, children, dependencies⟩ =>
    {a | (a = ⟨id, category, children, dependencies⟩ ∧
        ∃ f, t.fingerprint ⟨id, category, children, dependencies⟩ = .ok f) ∨
      (∃ own, t.sum (Derivation.ownTerms ⟨id, category, children, dependencies⟩) = .ok own) ∧
        a ∈ completedAll t children}

/-- The nodes that a walk over several trees completes, from left to right. -/
def completedAll (t : ContributionTable) : List Derivation → Set Derivation
  | [] => ∅
  | d :: ds => {a | a ∈ completed t d ∨ (∃ f, t.fingerprint d = .ok f) ∧ a ∈ completedAll t ds}

end

theorem mem_completed {a d : Derivation} : a ∈ t.completed d ↔
    (a = d ∧ ∃ f, t.fingerprint d = .ok f) ∨
      (∃ own, t.sum d.ownTerms = .ok own) ∧ a ∈ t.completedAll d.children := by
  obtain ⟨id, category, children, dependencies⟩ := d
  rw [completed]
  rfl

theorem mem_completedAll_cons {a d : Derivation} {ds : List Derivation} :
    a ∈ t.completedAll (d :: ds) ↔
      a ∈ t.completed d ∨ (∃ f, t.fingerprint d = .ok f) ∧ a ∈ t.completedAll ds := by
  rw [completedAll]
  rfl

theorem completed_of_own_error {d : Derivation} (hown : t.sum d.ownTerms = .error e) :
    t.completed d = ∅ := by
  ext a
  rw [mem_completed, (Breaks.here hown).fingerprint, hown]
  simp

/-- Where the terms of a node have contributions, it is complete if the trees below it are. -/
theorem completed_of_own {d : Derivation} {own : Fingerprint} (hown : t.sum d.ownTerms = .ok own) :
    (∀ e, t.fingerprintAll d.children = .error e → t.completed d = t.completedAll d.children) ∧
      ∀ f, t.fingerprintAll d.children = .ok f →
        t.completed d = insert d (t.completedAll d.children) := by
  refine ⟨fun e he => ?_, fun f hf => ?_⟩
  · ext a
    rw [mem_completed, fingerprint_ok, ← fingerprintAll_ok, he, hown]
    simp
  · ext a
    rw [mem_completed, fingerprint_ok, ← fingerprintAll_ok, hf, hown, Set.mem_insert_iff]
    simp

theorem completedAll_cons (d : Derivation) (ds : List Derivation) :
    (∀ e, t.fingerprint d = .error e → t.completedAll (d :: ds) = t.completed d) ∧
      ∀ f, t.fingerprint d = .ok f →
        t.completedAll (d :: ds) = t.completed d ∪ t.completedAll ds := by
  refine ⟨fun e he => ?_, fun f hf => ?_⟩
  · ext a
    rw [mem_completedAll_cons, he]
    simp
  · ext a
    rw [mem_completedAll_cons, hf, Set.mem_union]
    simp

mutual

/-- A walk that succeeds completes all nodes. -/
theorem completed_of_ok {a : Derivation} : ∀ d : Derivation, (∃ f, t.fingerprint d = .ok f) →
    (a ∈ t.completed d ↔ Occurs a d)
  | ⟨id, category, children, dependencies⟩, hd => by
    obtain ⟨hown, hchildren⟩ := fingerprint_ok.mp hd
    rw [mem_completed, Derivation.occurs_iff, completedAll_of_ok children hchildren]
    simp only [hd, hown, and_true, true_and]

theorem completedAll_of_ok {a : Derivation} : ∀ ds : List Derivation,
    (∀ d ∈ ds, ∃ f, t.fingerprint d = .ok f) → (a ∈ t.completedAll ds ↔ ∃ d ∈ ds, Occurs a d)
  | [], _ => by simp [completedAll]
  | d :: ds, hds => by
    obtain ⟨hd, hrest⟩ := List.forall_mem_cons.mp hds
    rw [mem_completedAll_cons, completed_of_ok d hd, completedAll_of_ok ds hrest,
      List.exists_mem_cons_iff]
    simp only [hd, true_and]

end

theorem mem_completedAll_append {a : Derivation} {ds : List Derivation} :
    ∀ {before : List Derivation}, (∀ b ∈ before, ∃ f, t.fingerprint b = .ok f) →
      (a ∈ t.completedAll (before ++ ds) ↔ (∃ b ∈ before, Occurs a b) ∨ a ∈ t.completedAll ds)
  | [], _ => by simp
  | b :: before, hb => by
    obtain ⟨hfirst, hrest⟩ := List.forall_mem_cons.mp hb
    rw [List.cons_append, mem_completedAll_cons, completed_of_ok b hfirst,
      mem_completedAll_append hrest, List.exists_mem_cons_iff]
    simp only [hfirst, true_and, or_assoc]

/-- A walk that breaks completes the nodes of the trees to the left of its path. -/
theorem completed_of_breaks {a d : Derivation} {path done : List Derivation}
    (h : Breaks t e d path done) : a ∈ t.completed d ↔ ∃ b ∈ done, Occurs a b := by
  induction h with
  | here hown =>
    have hfail := (Breaks.here hown).fingerprint
    rw [mem_completed, hown, hfail]
    simp
  | @inChild d c own before after path done hown hchildren hbefore hc ih =>
    have hfail := (Breaks.inChild hown hchildren hbefore hc).fingerprint
    rw [mem_completed, hown, hfail, hchildren, mem_completedAll_append hbefore,
      mem_completedAll_cons, hc.fingerprint, ih]
    simp [or_and_right, exists_or]

/-- What a walk completes are nodes of the tree whose fingerprints can be taken, and with a node all
nodes below it. -/
theorem completed_spec {a d : Derivation} (ha : a ∈ t.completed d) :
    Occurs a d ∧ (∃ f, t.fingerprint a = .ok f) ∧ ∀ b, Occurs b a → b ∈ t.completed d := by
  rcases hd : t.fingerprint d with e | f
  · obtain ⟨path, done, hbreaks⟩ := fingerprint_error_iff.mp hd
    obtain ⟨b, hb, hab⟩ := (completed_of_breaks hbreaks).mp ha
    exact ⟨(hbreaks.occurs_done b hb).trans hab, hab.fingerprint_ok (hbreaks.done_ok b hb),
      fun x hx => (completed_of_breaks hbreaks).mpr ⟨b, hb, hab.trans hx⟩⟩
  · have hocc := (completed_of_ok d ⟨f, hd⟩).mp ha
    exact ⟨hocc, hocc.fingerprint_ok ⟨f, hd⟩,
      fun x hx => (completed_of_ok d ⟨f, hd⟩).mpr (hocc.trans hx)⟩

end ContributionTable

end CategorialChart
