import CategorialChart.Derivation.Basic

/-!
# Agenda items

What is offered to the cells of a chart: a derivation with its scores and its equivalence key. Items
with one key are interchangeable for everything outside their span.

* `Item`: an item with keys of any type `κ` and scores of any type `σ`.
* `Key`: the keys that a parser usually needs: plain numbers, and keys that are derived from a
  category, alone or with its head word. Different values have different keys.
-/

namespace CategorialChart

/-- An item of the agenda. -/
structure Item (κ σ : Type) where
  /-- The derivation. -/
  derivation : Derivation
  /-- The cost; lower is better. -/
  cost : σ
  /-- The inside score; higher is better. -/
  insideScore : σ
  /-- The equivalence key. -/
  key : κ

/-- An equivalence key. -/
inductive Key where
  /-- A number that the producer of the items has chosen. -/
  | number (value : Nat)
  /-- The key of a category. -/
  | ofCategory (category : Category)
  /-- The key of a category with the position of its head word. -/
  | ofHeaded (category : Category) (head : Nat)
deriving DecidableEq, Ord, Repr

end CategorialChart
