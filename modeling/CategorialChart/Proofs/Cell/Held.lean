import CategorialChart.Proofs.Cell.Survivors

/-! # What a cell holds of its offers

A cell `Holds` its offers if it has the survivors of the items under each key, and if its counters
are those of the outcomes. So it does before any offer, and an offer that is dealt with as its
outcome says keeps it so: one that is refused for the reason of its outcome (`Holds.refuse`), and
one that is kept because nothing is against it (`Holds.keep`). What counts as a repetition is a
parameter, as it is for the survivors. -/

namespace CategorialChart.Cell

variable {κ σ : Type} [DecidableEq κ] [LT σ] [DecidableLT σ] [Mul σ]

/-- **The cell holds the survivors** of the offers, key by key, and has counted their outcomes. -/
structure Holds (same : Item κ σ → Item κ σ → Bool) (limit : Nat) (beam : σ) (c : Cell κ σ)
    (offers : List (κ × Item κ σ)) : Prop where
  keyed : c.Keyed
  items : ∀ k, (c.group k).items = survivors same limit beam (under k offers)
  stats : c.stats = tally (outcomes same limit beam offers)

theorem holds_empty (same : Item κ σ → Item κ σ → Bool) (limit : Nat) (beam : σ)
    (policy : Policy σ) : ({ policy := policy } : Cell κ σ).Holds same limit beam [] where
  keyed := keyed_empty policy
  items _ := rfl
  stats := rfl

variable {same : Item κ σ → Item κ σ → Bool} {limit : Nat} {beam : σ} {c : Cell κ σ}
  {offers : List (κ × Item κ σ)}

namespace Holds

theorem entriesFor (hc : c.Holds same limit beam offers) (k : κ) :
    c.entriesFor k = survivors same limit beam (under k offers) := by
  rw [entriesFor_eq hc.keyed, hc.items]

theorem refuse (hs : ∀ a b c, same a b = true → same b c = true → same a c = true)
    (hc : c.Holds same limit beam offers) {key : κ} {item : Item κ σ} {why : Refusal}
    (ho : outcome same limit beam (under key offers) item = some why) :
    (c.refuse why).Holds same limit beam (offers ++ [(key, item)]) where
  keyed := hc.keyed.refuse why
  items k := by
    rw [group_refuse, hc.items, survivors_under_concat hs, ho,
      if_neg fun h => Option.some_ne_none why h.2, List.append_nil]
  stats := by
    rw [outcomes_concat, ho, tally_concat_some, ← hc.stats]
    rfl

variable [Ord κ]

theorem withGroup (hc : c.Holds same limit beam offers) (key : κ) :
    (c.withGroup key).Holds same limit beam offers where
  keyed := hc.keyed.withGroup key
  items k := by rw [group_withGroup, hc.items]
  stats := hc.stats

theorem keep (hs : ∀ a b c, same a b = true → same b c = true → same a c = true)
    (hc : c.Holds same limit beam offers) (hp : c.policy.has .keyed = true) {key : κ}
    {item : Item κ σ} (ho : outcome same limit beam (under key offers) item = none)
    (f : Option Fingerprint) : (c.keep key item f).Holds same limit beam (offers ++ [(key, item)])
    where
  keyed := hc.keyed.keep hp key item f
  items k := by
    rw [group_keep hc.keyed hp, survivors_under_concat hs, ho, ← hc.items]
    by_cases hk : k = key
    · subst hk
      rw [if_pos rfl, if_pos ⟨rfl, rfl⟩, Group.push]
    · rw [if_neg hk, if_neg fun h => hk h.1.symm, List.append_nil]
  stats := by
    rw [outcomes_concat, ho, tally_concat_none, ← hc.stats]
    rfl

end Holds

end CategorialChart.Cell
