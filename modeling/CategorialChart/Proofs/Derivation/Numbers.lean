import CategorialChart.Derivation.Item
import Mathlib.Data.Set.Function

/-! # Nodes and their numbers

What is remembered for a node is found again by its number, so everything about remembered
fingerprints rests on numbers that belong to one node each: `OwnNumbers D` says so of all nodes of
the derivations of `D`. `NodeSupply.Numbers.node`: nodes whose numbers a supply has given out keep
this property when a new node is made from them, as those of the small `Forest` are. -/

namespace CategorialChart

namespace Derivation

/-- The nodes of the trees of `D`. -/
def nodes (D : Set Derivation) : Set Derivation := {a | ∃ d ∈ D, Occurs a d}

/-- **Every node has a number of its own.** A node keeps its number when its dependencies are
resolved, so it occurs with its dependencies or without them, not both
(`OwnNumbers.withDependencies_eq`). -/
def OwnNumbers (D : Set Derivation) : Prop := Set.InjOn Derivation.id (nodes D)

variable {D E : Set Derivation}

theorem mem_nodes {d : Derivation} (h : d ∈ D) : d ∈ nodes D := ⟨d, h, .root⟩

theorem occurs_iff {a d : Derivation} : Occurs a d ↔ a = d ∨ ∃ c ∈ d.children, Occurs a c := by
  constructor
  · intro h
    cases h with
    | root => exact Or.inl rfl
    | inChild hm ho => exact Or.inr ⟨_, hm, ho⟩
  · rintro (rfl | ⟨c, hm, ho⟩)
    · exact .root
    · exact .inChild hm ho

theorem Occurs.child {a c d : Derivation} (h : Occurs a d) (hc : c ∈ a.children) :
    Occurs c d := by
  induction h with
  | root => exact .inChild hc .root
  | inChild hm _ ih => exact .inChild hm ih

theorem Occurs.trans {a b d : Derivation} (h : Occurs b d) (hab : Occurs a b) : Occurs a d := by
  induction h with
  | root => exact hab
  | inChild hm _ ih => exact .inChild hm ih

theorem child_mem_nodes {a c : Derivation} (h : a ∈ nodes D) (hc : c ∈ a.children) :
    c ∈ nodes D := by
  obtain ⟨d, hd, ho⟩ := h
  exact ⟨d, hd, ho.child hc⟩

theorem nodes_mono (h : D ⊆ E) : nodes D ⊆ nodes E := by
  rintro a ⟨d, hd, ho⟩
  exact ⟨d, h hd, ho⟩

theorem OwnNumbers.mono (h : D ⊆ E) (hE : OwnNumbers E) : OwnNumbers D :=
  Set.InjOn.mono (nodes_mono h) hE

/-- Where nodes have numbers of their own, no dependencies are resolved after the fact. -/
theorem OwnNumbers.withDependencies_eq (hD : OwnNumbers D) {d : Derivation}
    {dependencies : List Dependency} (hd : d ∈ nodes D)
    (h : d.withDependencies dependencies ∈ nodes D) : d.withDependencies dependencies = d :=
  hD h hd rfl

end Derivation

open CategorialChart.Derivation (nodes OwnNumbers)

namespace NodeSupply

/-- The nodes of `D` have numbers of their own, and the supply has given them out. -/
structure Numbers (s : NodeSupply) (D : Set Derivation) : Prop where
  own : OwnNumbers D
  lt : ∀ a ∈ nodes D, a.id < s.next

theorem numbers_empty (s : NodeSupply) : s.Numbers ∅ := by
  refine ⟨?_, ?_⟩
  · rintro a ⟨d, hd, -⟩
    exact absurd hd (Set.notMem_empty d)
  · rintro a ⟨d, hd, -⟩
    exact absurd hd (Set.notMem_empty d)

/-- **A new node has a number of its own.** -/
theorem Numbers.node {s : NodeSupply} {D : Set Derivation} (h : s.Numbers D) (category : Category)
    (children : List Derivation) (dependencies : Option (List Dependency))
    (hc : ∀ c ∈ children, c ∈ nodes D) :
    (s.node category children dependencies).2.Numbers
      (insert (s.node category children dependencies).1 D) := by
  have hnumber := s.id_node category children dependencies
  have hchildren := s.children_node category children dependencies
  have hnext : (s.node category children dependencies).2.next = s.next + 1 := rfl
  generalize s.node category children dependencies = new at hnumber hchildren hnext ⊢
  -- a node of the larger set is the new one or was there before
  have split : ∀ a ∈ nodes (insert new.1 D), a = new.1 ∨ a ∈ nodes D := by
    rintro a ⟨d, hd, ho⟩
    rcases Set.mem_insert_iff.mp hd with rfl | hd
    · rcases ho with _ | ⟨hm, ho⟩
      · exact Or.inl rfl
      · rw [hchildren] at hm
        obtain ⟨e, he, hoe⟩ := hc _ hm
        exact Or.inr ⟨e, he, hoe.trans ho⟩
    · exact Or.inr ⟨d, hd, ho⟩
  refine ⟨fun a ha b hb hab => ?_, fun a ha => ?_⟩
  · rcases split a ha with rfl | ha' <;> rcases split b hb with rfl | hb'
    · rfl
    · rw [hnumber] at hab
      exact absurd hab (Nat.ne_of_gt (h.lt b hb'))
    · rw [hnumber] at hab
      exact absurd hab (Nat.ne_of_lt (h.lt a ha'))
    · exact h.own ha' hb' hab
  · rw [hnext]
    rcases split a ha with rfl | ha'
    · rw [hnumber]
      exact Nat.lt_succ_self s.next
    · exact Nat.lt_succ_of_lt (h.lt a ha')

end NodeSupply

/-! ### A small forest -/

namespace Forest

/-- The category `NP`. -/
def phrase : Category := .atom "NP" none

/-- The category `NP/N`. -/
def determiner : Category := .functor phrase .forward (.atom "N" none)

/-- The second word fills the slot of the first, which is a determiner. -/
def filled : Dependency := ⟨⟨determiner, 1⟩, 0, [1]⟩

/-- A node that resolves one dependency. -/
def once : Derivation := ⟨0, phrase, [], some [filled]⟩

/-- A node that resolves the same dependency twice. -/
def twice : Derivation := ⟨1, phrase, [], some [filled, filled]⟩

/-- The first node below another. -/
def raised : Derivation := ⟨2, phrase, [once], none⟩

/-- The first node below another, and shared by it. -/
def paired : Derivation := ⟨3, phrase, [once, once], none⟩

/-- An item with a cost. -/
def item (d : Derivation) (cost : Nat) : Item Nat Nat := ⟨d, cost, 0, 0⟩

theorem numbers : NodeSupply.Numbers ⟨4⟩ {paired, raised, twice, once} := by
  have h1 : NodeSupply.Numbers ⟨1⟩ (insert once ∅) :=
    (NodeSupply.numbers_empty {}).node phrase [] (some [filled]) (by simp)
  have h2 : NodeSupply.Numbers ⟨2⟩ (insert twice (insert once ∅)) :=
    h1.node phrase [] (some [filled, filled]) (by simp)
  have honce : once ∈ nodes (insert twice (insert once ∅)) := Derivation.mem_nodes (by simp)
  have h3 : NodeSupply.Numbers ⟨3⟩ (insert raised (insert twice (insert once ∅))) :=
    h2.node phrase [once] none (by simpa using honce)
  have honce' := Derivation.nodes_mono (Set.subset_insert raised _) honce
  have h4 := h3.node phrase [once, once] none (by simpa using honce')
  rw [insert_empty_eq] at h4
  exact h4

theorem own : OwnNumbers {paired, raised, twice, once} := numbers.own

end Forest

end CategorialChart
