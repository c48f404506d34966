import CategorialChart.Category.Basic

/-!
# The grammar of the category notation

What it means for a text to write a category, said without a reader.

* `Category.IsName`, `Category.IsFeature`: the names and features that the notation has.
* `Category.Derives s c`: the text `s` writes `c`. Slashes associate to the left, and parentheses
  leave the category unchanged.
* `Category.WellFormed c`: every name and feature in `c` is one that the notation has.
-/

namespace CategorialChart.Category

/-- A name is a non-empty run of ASCII letters, or one of the marks `, . ; :`. -/
def IsName (s : List Char) : Prop :=
  (s ≠ [] ∧ ∀ c ∈ s, c.isAlpha = true) ∨ ∃ c ∈ [',', '.', ';', ':'], s = [c]

/-- A feature is a non-empty run of ASCII letters. -/
def IsFeature (s : List Char) : Prop :=
  s ≠ [] ∧ ∀ c ∈ s, c.isAlpha = true

mutual

/-- The text writes a category that can stand as an operand: an atom, or any category in
parentheses. -/
inductive DerivesPrimary : List Char → Category → Prop
  | plain {name : List Char} : IsName name →
      DerivesPrimary name (.atom (String.ofList name) none)
  | featured {name feature : List Char} : IsName name → IsFeature feature →
      DerivesPrimary (name ++ '[' :: (feature ++ [']']))
        (.atom (String.ofList name) (some (String.ofList feature)))
  | enclosed {s : List Char} {c : Category} : Derives s c →
      DerivesPrimary ('(' :: (s ++ [')'])) c

/-- **The text writes the category.** -/
inductive Derives : List Char → Category → Prop
  | primary {s : List Char} {c : Category} : DerivesPrimary s c → Derives s c
  | slash {s t : List Char} {c a : Category} (d : Slash) : Derives s c → DerivesPrimary t a →
      Derives (s ++ d.char :: t) (.functor c d a)

end

/-- Every name and feature in the category is one that the notation has. -/
def WellFormed : Category → Prop
  | atom name none => IsName name.toList
  | atom name (some feature) => IsName name.toList ∧ IsFeature feature.toList
  | functor result _ argument => result.WellFormed ∧ argument.WellFormed

end CategorialChart.Category
