/-!
# Categories of a categorial grammar

A category is an atom, such as `NP` or `S[dcl]`, or a functor that takes an argument on one side
and then becomes its result: `X/Y` looks for a `Y` to the right and `X\Y` for one to the left. The
arguments of a functor are counted along the result spine, so `(S\NP)/NP` takes two.

* `Category`: atoms with an optional feature, and functors. Nothing is asked of the names in an
  atom; which categories the notation can write is `Category.WellFormed` in `Category.Grammar`.
* `Category.arity`, `Category.slots`: how many arguments a category takes, and the numbered
  argument places that dependencies refer to.
* `Category.spell`: the notation of a category, with exactly the functor operands in parentheses.
-/

namespace CategorialChart

/-- The side on which a functor looks for its argument. -/
inductive Slash where
  /-- The argument stands to the right, as in `X/Y`. -/
  | forward
  /-- The argument stands to the left, as in `X\Y`. -/
  | backward
deriving DecidableEq, Ord, Repr

/-- The character that writes a slash. -/
def Slash.char : Slash → Char
  | .forward => '/'
  | .backward => '\\'

/-- A category of the grammar. -/
inductive Category where
  /-- An atomic category, perhaps with a feature in square brackets. -/
  | atom (name : String) (feature : Option String)
  /-- A category that becomes `result` once it has found `argument` on the side of `slash`. -/
  | functor (result : Category) (slash : Slash) (argument : Category)
deriving DecidableEq, Ord, Repr

namespace Category

/-- Whether the category takes an argument. -/
def isFunctor : Category → Bool
  | atom _ _ => false
  | functor _ _ _ => true

/-- What a functor becomes when it has found its argument. -/
def result? : Category → Option Category
  | atom _ _ => none
  | functor result _ _ => some result

/-- The side on which a functor looks for its argument. -/
def slash? : Category → Option Slash
  | atom _ _ => none
  | functor _ slash _ => some slash

/-- What a functor looks for. -/
def argument? : Category → Option Category
  | atom _ _ => none
  | functor _ _ argument => some argument

/-- The number of arguments along the result spine; arguments of arguments do not count. -/
def arity : Category → Nat
  | atom _ _ => 0
  | functor result _ _ => result.arity + 1

/-! ## Notation -/

/-- The notation of a category. An operand stands in parentheses exactly if it is a functor. -/
def spell : Category → List Char
  | atom name none => name.toList
  | atom name (some feature) => name.toList ++ '[' :: (feature.toList ++ [']'])
  | functor result slash argument =>
    operand result.isFunctor result.spell ++
      slash.char :: operand argument.isFunctor argument.spell
where
  /-- The text of an operand: `text` itself, or `text` in parentheses. -/
  operand (enclosed : Bool) (text : List Char) : List Char :=
    if enclosed then '(' :: (text ++ [')']) else text

instance : ToString Category where
  toString c := String.ofList c.spell

/-- A short description of a category. -/
def describe (c : Category) : String := s!"Category({c})"

end Category

/-! ## Argument slots -/

/-- An argument place of a category. Places are numbered from `1`, the innermost argument of the
result spine first: the subject of `(S\NP)/NP` fills slot `1`, its object slot `2`. -/
structure Slot where
  /-- The category that takes the argument. -/
  category : Category
  /-- The number of the argument. -/
  index : Nat
deriving DecidableEq, Repr

/-- The argument places of a category, in order. -/
def Category.slots (c : Category) : List Slot :=
  (List.range c.arity).map fun i => ⟨c, i + 1⟩

theorem Category.mem_slots {c : Category} {s : Slot} :
    s ∈ c.slots ↔ s.category = c ∧ 1 ≤ s.index ∧ s.index ≤ c.arity := by
  obtain ⟨d, i⟩ := s
  simp only [slots, List.mem_map, List.mem_range, Slot.mk.injEq]
  constructor
  · rintro ⟨j, hj, rfl, rfl⟩
    exact ⟨rfl, by omega, by omega⟩
  · rintro ⟨rfl, h1, h2⟩
    exact ⟨i - 1, by omega, rfl, by omega⟩

end CategorialChart
