import CategorialChart.Proofs.Chart.Offers
import CategorialChart.Proofs.Session.Plain

/-! # Seeding in a session

Seeding a chart of a session does what offers to its spans do, made one by one: those of the items
that are `made` from the candidates, up to the first that fails (`Session.seed_eq_run`). So what is
true of all runs is true of sessions in which charts are seeded as well. -/

namespace CategorialChart.Session

variable {κ σ : Type} {s : Session κ σ} {number : Nat} {c : Owned (Chart κ σ)} {w : Workspace σ}

/-- The session after a chart of it and the hasher of this chart were used. -/
def putUsed (s : Session κ σ) (number : Nat) (c : Owned (Chart κ σ)) (chart : Chart κ σ)
    (hasher : Hasher) : Session κ σ :=
  (s.putHasher c.workspace hasher).putChart number { c with value := chart }

theorem putUsed_self (hc : s.charts[number]? = some c) (hw : s.workspaces[c.workspace]? = some w) :
    s.putUsed number c c.value w.hasher = s := by
  have hset : ∀ {α : Type} {l : List α} {i : Nat} {a : α}, l[i]? = some a → l.set i a = l := by
    intro α l i a h
    obtain ⟨hlt, rfl⟩ := List.getElem?_eq_some_iff.mp h
    exact List.set_getElem_self hlt
  rw [putUsed, putHasher_eq hw, putWorkspace, putChart]
  dsimp only
  rw [hset hw, hset hc]

theorem chartInUse?_putUsed (hc : s.charts[number]? = some c)
    (hw : s.workspaces[c.workspace]? = some w) (chart : Chart κ σ) (hasher : Hasher) :
    (s.putUsed number c chart hasher).chartInUse? number =
      some ({ c with value := chart }, hasher) := by
  obtain ⟨hlt, -⟩ := List.getElem?_eq_some_iff.mp hc
  simp [putUsed, putChart, putHasher, chartInUse?, List.getElem?_modify, hlt, hw]

theorem putUsed_putUsed (s : Session κ σ) (number : Nat) (c : Owned (Chart κ σ))
    (chart chart' : Chart κ σ) (hasher hasher' : Hasher) :
    (s.putUsed number c chart hasher).putUsed number { c with value := chart } chart' hasher' =
      s.putUsed number c chart' hasher' := by
  unfold putUsed putChart putHasher
  simp [List.modify_modify_eq, Function.comp_def]

variable [DecidableEq κ] [Ord κ] [LT σ] [DecidableLT σ] [Mul σ]

/-- An offer to a span of the chart. -/
theorem act_putUsed (hc : s.charts[number]? = some c) (hw : s.workspaces[c.workspace]? = some w)
    (chart : Chart κ σ) (hasher : Hasher) (span : Span) (key : κ) (item : Item κ σ) :
    ((s.putUsed number c chart hasher).act (.offer (.span number span) key item)).2 =
      s.putUsed number c (chart.offer hasher span key item).2.1
        (chart.offer hasher span key item).2.2 := by
  rw [act, offer, chartInUse?_putUsed hc hw]
  exact putUsed_putUsed s number c chart _ hasher _

/-- The offers of several items to spans of a chart. -/
def offersTo (number : Nat) (offers : List (Span × Item κ σ)) : List (Action κ σ) :=
  offers.map fun o => .offer (.span number o.1) o.2.key o.2

theorem addMade_eq_run {S : Type} (make : Nat → ScoredCategory σ → StateM S (Item κ σ))
    (hc : s.charts[number]? = some c) (hw : s.workspaces[c.workspace]? = some w) :
    ∀ (xs : List (Nat × ScoredCategory σ)) (chart : Chart κ σ) (hasher : Hasher) (st : S),
      ∃ offers, offers <+: Chart.made make xs st ∧
        s.putUsed number c (Chart.addMade make xs chart hasher st).1.2.1
            (Chart.addMade make xs chart hasher st).1.2.2 =
          ((s.putUsed number c chart hasher).run (offersTo number offers)).2
  | [], chart, hasher, st => ⟨[], List.nil_prefix, rfl⟩
  | (word, candidate) :: xs, chart, hasher, st => by
    rcases hm : make word candidate st with ⟨item, st'⟩
    have hact := act_putUsed hc hw chart hasher (.word word) item.key item
    rcases ho : chart.offer hasher (.word word) item.key item with ⟨e | b, chart', hasher'⟩
    · refine ⟨[(.word word, item)], ?_, ?_⟩
      · rw [Chart.made, hm]
        exact List.prefix_append _ _
      · rw [Chart.addMade_cons_error xs hm ho]
        rw [ho] at hact
        exact hact.symm
    · obtain ⟨offers, hoffers, hrun⟩ := addMade_eq_run make hc hw xs chart' hasher' st'
      refine ⟨(.word word, item) :: offers, ?_, ?_⟩
      · rw [Chart.made, hm]
        exact (List.prefix_cons_inj _).mpr hoffers
      · rw [ho] at hact
        rw [Chart.addMade_cons_ok xs hm ho, hrun, ← hact]
        rfl

/-- **Seeding a chart of a session** does what offers do, of the first of the items that are made,
or of all of them. -/
theorem seed_eq_run {S : Type} (s : Session κ σ) (number : Nat)
    (tags : List (List (ScoredCategory σ))) (make : Nat → ScoredCategory σ → StateM S (Item κ σ))
    (st : S) :
    ∃ offers, offers <+: Chart.made make (Chart.candidates 0 tags) st ∧
      (s.seed number tags make st).1.2 = (s.run (offersTo number offers)).2 := by
  rcases hu : s.chartInUse? number with _ | ⟨c, h⟩
  · refine ⟨[], List.nil_prefix, ?_⟩
    rw [seed, hu]
    rfl
  obtain ⟨hc, w, hw, rfl⟩ := chartInUse?_eq_some hu
  obtain ⟨offers, hoffers, hrun⟩ := addMade_eq_run make hc hw
    (Chart.candidates 0 (tags.take c.value.length)) c.value w.hasher st
  refine ⟨offers, hoffers.trans ?_, ?_⟩
  · have hrows := Chart.candidates_append (tags.take c.value.length) (tags.drop c.value.length) 0
    rw [List.take_append_drop] at hrows
    rw [hrows]
    exact Chart.made_append_left make _ _ st
  · rw [putUsed_self hc hw] at hrun
    rw [seed, hu, ← hrun]
    simp only [Chart.seed_eq]
    rfl

end CategorialChart.Session
