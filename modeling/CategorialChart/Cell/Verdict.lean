import CategorialChart.Cell.Stats
import CategorialChart.Derivation.Item
import CategorialChart.Policy

/-!
# Verdicts

What a policy says of an item, given the items that are held under its key, oldest first.
Fingerprints are not compared here: a policy that takes them does so only for items that the
verdict keeps.
-/

namespace CategorialChart

/-- What becomes of an item. -/
inductive Verdict where
  /-- It is added to those held. -/
  | keep
  /-- It takes the place of the one held. -/
  | replace
  /-- It is refused. -/
  | refuse (why : Refusal)
deriving DecidableEq, Repr

variable {κ σ : Type} [LT σ] [DecidableLT σ] [Mul σ]

/-- The verdict of the n-best policies. The count is tested before the beam, and `limit + 1` items
are within the count. The beam belongs to the first item. -/
def withinBeam (limit : Nat) (beam : σ) (held : List (Item κ σ)) (item : Item κ σ) : Verdict :=
  if limit < held.length then .refuse .count
  else
    match held with
    | [] => .keep
    | first :: _ => if item.cost < beam * first.cost then .refuse .beam else .keep

/-- **The verdict of a policy.** -/
def Policy.judge (p : Policy σ) (held : List (Item κ σ)) (item : Item κ σ) : Verdict :=
  match p with
  | .oneBest | .oneBestOrdered => if held.isEmpty then .keep else .refuse .occupied
  | .oneBestCky =>
    match held with
    | [] => .keep
    | current :: _ =>
      if current.insideScore < item.insideScore then .replace else .refuse .notBetter
  | .nBest limit beam | .nBestHashed limit beam => withinBeam limit beam held item
  | .unbounded => .keep

/-- An empty group refuses nothing. -/
theorem Policy.judge_nil (p : Policy σ) (item : Item κ σ) : p.judge [] item = .keep := by
  cases p <;> simp [judge, withinBeam]

end CategorialChart
