/-!
# Retention policies

A policy says which of the items offered to a cell survive. All but one treat the items of each
equivalence key on their own.

* `Policy`: the closed list of policies.
* `Trait`, `Policy.has`: what can be said of a policy in general. The policies with
  `Trait.requiresBestFirst` take the first item offered under a key for the best one.
* `Policy.Valid`: the beam of the n-best policies is a fraction, above `0` and at most `1`.
-/

namespace CategorialChart

/-- Which items a cell keeps. Costs are of type `σ`. -/
inductive Policy (σ : Type) where
  /-- One item per key: the first that is offered. -/
  | oneBest
  /-- One item per key, the first that is offered; keys are listed in their order. -/
  | oneBestOrdered
  /-- One item per key: a strictly higher inside score takes the place of the item held. -/
  | oneBestCky
  /-- Up to `limit + 1` items per key, none of which costs less than `beam` times the first. -/
  | nBest (limit : Nat) (beam : σ)
  /-- As `nBest`, and no two items of a key with the same fingerprint. -/
  | nBestHashed (limit : Nat) (beam : σ)
  /-- Every item, in the order of arrival. -/
  | unbounded
deriving DecidableEq, Repr

/-- What can be said of a policy in general. -/
inductive Trait where
  /-- Items are grouped by their keys. -/
  | keyed
  /-- The number of items per key is bounded. -/
  | bounded
  /-- A later item can take the place of an earlier one. -/
  | replaces
  /-- Items with the fingerprint of an item held are refused. -/
  | structuralDedup
  /-- The first item of a key is taken for its best. -/
  | requiresBestFirst
  /-- Items are listed in the order of their keys. -/
  | orderedKeys
deriving DecidableEq, Repr

/-- The traits, in the order of their bits. -/
def Trait.all : List Trait :=
  [.keyed, .bounded, .replaces, .structuralDedup, .requiresBestFirst, .orderedKeys]

/-- The bit of a trait in a trait mask. -/
def Trait.bit (t : Trait) : Nat := 1 <<< Trait.all.idxOf t

namespace Policy

variable {σ : Type}

/-- Whether a trait holds of a policy. -/
def has (p : Policy σ) : Trait → Bool
  | .keyed => match p with | .unbounded => false | _ => true
  | .bounded => match p with | .unbounded => false | _ => true
  | .replaces => match p with | .oneBestCky => true | _ => false
  | .structuralDedup => match p with | .nBestHashed _ _ => true | _ => false
  | .requiresBestFirst => match p with | .oneBestCky | .unbounded => false | _ => true
  | .orderedKeys => match p with | .oneBestOrdered => true | _ => false

/-- The traits of a policy. -/
def traits (p : Policy σ) : List Trait := Trait.all.filter p.has

/-- The traits of a policy as a mask of bits. -/
def traitMask (p : Policy σ) : Nat := p.traits.foldr (fun t mask => t.bit ||| mask) 0

/-- The name of a policy. -/
def name : Policy σ → String
  | .oneBest => "one-best"
  | .oneBestOrdered => "one-best-ordered"
  | .oneBestCky => "one-best-cky"
  | .nBest _ _ => "nbest"
  | .nBestHashed _ _ => "nbest-hashed"
  | .unbounded => "unbounded"

/-- The relative beam of a policy that has one. -/
def beam? : Policy σ → Option σ
  | .nBest _ beam | .nBestHashed _ beam => some beam
  | _ => none

/-- The beam, if there is one, is above `0` and at most `1`. An undefined beam is neither. -/
def Valid [LT σ] [LE σ] [OfNat σ 0] [OfNat σ 1] (p : Policy σ) : Prop :=
  ∀ beam ∈ p.beam?, 0 < beam ∧ beam ≤ 1

end Policy

end CategorialChart
