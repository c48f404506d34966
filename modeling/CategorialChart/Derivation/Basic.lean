import CategorialChart.Category.Basic

/-!
# Derivations

A derivation is a tree of categories. Some of its nodes resolve dependencies: the words that fill
an argument slot of a head word. Nodes carry a number of their own, by which what was computed for
a node is found again when the node is shared by several trees.

* `Dependency`, `Term`: a dependency, and its single pairs of a head with another word.
* `Derivation`: the trees. Dependencies that were never resolved are `none`.
* `Derivation.withDependencies`: resolves the dependencies of a node, which keeps its number.
* `Derivation.ownTerms`: the terms that a node resolves itself.
* `Derivation.terms`: the terms of the unfolded tree, in the order in which they are visited.
* `NodeSupply`: numbers for new nodes, each given out once.
-/

namespace CategorialChart

/-- An unlabelled dependency: the words that fill an argument slot of `head`. -/
structure Dependency where
  /-- The slot that is filled. -/
  slot : Slot
  /-- The position of the head word in its sentence. -/
  head : Nat
  /-- The positions of the words that fill the slot; coordination can give several. -/
  arguments : List Nat
deriving DecidableEq, Repr

/-- One word in an argument slot of another. -/
structure Term where
  /-- The slot that is filled. -/
  slot : Slot
  /-- The position of the head word. -/
  head : Nat
  /-- The position of the word that fills the slot. -/
  argument : Nat
deriving DecidableEq, Repr

/-- The terms of a dependency, one per argument. A head that is its own argument gives none. -/
def Dependency.terms (d : Dependency) : List Term :=
  (d.arguments.filter (· ≠ d.head)).map fun argument => ⟨d.slot, d.head, argument⟩

/-- A derivation: the root node, with the derivations below it. -/
structure Derivation where
  /-- The number of the node. -/
  id : Nat
  /-- The category that is derived. -/
  category : Category
  /-- The derivations from which it is derived, from left to right. -/
  children : List Derivation
  /-- The dependencies that the node resolves, if they have been looked for. -/
  dependencies : Option (List Dependency)

namespace Derivation

/-- The node with its dependencies resolved. It keeps its number, and what has been remembered under
the number is not looked at again. So a node gets its dependencies before a fingerprint is taken of
it, or of a node above it. -/
def withDependencies (d : Derivation) (dependencies : List Dependency) : Derivation :=
  { d with dependencies := some dependencies }

/-- The terms that the node resolves itself. -/
def ownTerms (d : Derivation) : List Term :=
  (d.dependencies.getD []).flatMap Dependency.terms

mutual

/-- The terms of the unfolded tree: those of the node, then those below it from left to right. What
is reached along several paths counts once per path. -/
def terms : Derivation → List Term
  | ⟨id, category, children, dependencies⟩ =>
    ownTerms ⟨id, category, children, dependencies⟩ ++ termsOf children

/-- The terms of several unfolded trees. -/
def termsOf : List Derivation → List Term
  | [] => []
  | d :: ds => d.terms ++ termsOf ds

end

/-- The node occurs in the tree, at its root or below. -/
inductive Occurs (node : Derivation) : Derivation → Prop
  | root : Occurs node node
  | inChild {d child : Derivation} : child ∈ d.children → Occurs node child → Occurs node d

end Derivation

/-! ## Numbers for nodes -/

/-- A supply of numbers for new nodes. -/
structure NodeSupply where
  /-- The number of the next node. No node has this number or a greater one. -/
  next : Nat := 0
deriving DecidableEq, Repr

namespace NodeSupply

variable (supply : NodeSupply) (category : Category) (children : List Derivation)
  (dependencies : Option (List Dependency))

/-- A new node, and the supply for the nodes after it. Dependencies that have been looked for are
resolved at once, before anything can be remembered of the node. -/
def node : Derivation × NodeSupply :=
  let unresolved : Derivation := ⟨supply.next, category, children, none⟩
  (dependencies.elim unresolved unresolved.withDependencies, ⟨supply.next + 1⟩)

@[simp] theorem id_node : (supply.node category children dependencies).1.id = supply.next := by
  cases dependencies <;> rfl

@[simp] theorem children_node :
    (supply.node category children dependencies).1.children = children := by
  cases dependencies <;> rfl

end NodeSupply

end CategorialChart
