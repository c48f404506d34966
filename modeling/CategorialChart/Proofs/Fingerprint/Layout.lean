import CategorialChart.Proofs.Fingerprint.Coverage
import CategorialChart.Proofs.List.Repetitions

/-! # The layout of the table

The slabs of a table stand in the stream one after the other, without gaps, in the order in which
the grammar first lists their slots (`build_eq`). So the contribution of a term is the word at a
`place` that the slot and the two positions determine, and that no other term has.

* `Category.distinctSlots`: the slots of a grammar, each where it comes first.
* `laidOut`, `term_laidOut`: the table in which given slots have the slabs, and where it has the
  contribution of a term.
* `place_lt`, `place_inj`: every place is drawn, and no two terms have one place, for a place is a
  number in base `M` (`digits_lt`, `digits_inj`).
* `build_again`, `term_build_append`: what a category that is listed again does, and what further
  categories do.
* `layout_build`: the layout as a whole, and what it is for a grammar that goes on or repeats
  itself. -/

namespace CategorialChart

/-- The slots of the categories in order, without those that came before. -/
def Category.distinctSlots (categories : List Category) : List Slot :=
  (categories.flatMap Category.slots).eraseDups

namespace Category

variable {categories : List Category}

theorem mem_distinctSlots {s : Slot} : s ∈ distinctSlots categories ↔ s.Listed categories := by
  unfold distinctSlots Slot.Listed
  rw [List.mem_eraseDups, List.mem_flatMap]
  constructor
  · rintro ⟨c, hc, hs⟩
    obtain ⟨rfl, h⟩ := mem_slots.mp hs
    exact ⟨hc, h⟩
  · rintro ⟨hc, h⟩
    exact ⟨s.category, hc, mem_slots.mpr ⟨rfl, h⟩⟩

theorem nodup_distinctSlots : (distinctSlots categories).Nodup := nodup_eraseDups _

theorem distinctSlots_append (categories more : List Category) :
    distinctSlots categories <+: distinctSlots (categories ++ more) := by
  unfold distinctSlots
  rw [List.flatMap_append, List.eraseDups_append]
  exact List.prefix_append _ _

/-- A category that is listed again adds no slots. -/
theorem distinctSlots_again {before : List Category} {c : Category} (h : c ∈ before)
    (after : List Category) :
    distinctSlots (before ++ c :: after) = distinctSlots (before ++ after) := by
  unfold distinctSlots
  rw [List.flatMap_append, List.flatMap_cons, List.flatMap_append]
  exact eraseDups_append_of_subset (fun s hs => List.mem_flatMap.mpr ⟨c, h, hs⟩) _

end Category

namespace ContributionTable

open Category (distinctSlots)

variable {stream : Nat → UInt64} {M : Nat} {categories : List Category} {slots : List Slot}

/-! ### The slabs -/

/-- **The table in which the slots have slabs**, one after the other. -/
def laidOut (stream : Nat → UInt64) (M : Nat) (slots : List Slot) : ContributionTable where
  maxLength := M
  stream := stream
  slabs := slots.zipIdx.map fun p => (p.1, p.2 * (M * M))
  drawn := slots.length * (M * M)

/-- The slab of a slot begins where as many slabs end as there are slots before it. -/
theorem lookup_zipIdx (width : Nat) {s : Slot} : ∀ {slots : List Slot} (first : Nat), s ∈ slots →
    ((slots.zipIdx first).map fun p => (p.1, p.2 * width)).lookup s =
      some ((first + slots.idxOf s) * width)
  | [], first, h => absurd h List.not_mem_nil
  | slot :: slots, first, h => by
    rw [List.zipIdx_cons, List.map_cons, List.lookup_cons, List.idxOf_cons]
    by_cases hs : s = slot
    · subst hs
      simp
    · have hmem : s ∈ slots := (List.mem_cons.mp h).resolve_left hs
      have ih := lookup_zipIdx width (first + 1) hmem
      have hne : (s == slot) = false := beq_false_of_ne hs
      have hne' : (slot == s) = false := beq_false_of_ne (Ne.symm hs)
      rw [hne, hne', cond_false, ih, Nat.add_assoc, Nat.add_comm 1]

theorem offset?_laidOut {s : Slot} (h : s ∈ slots) :
    (laidOut stream M slots).offset? s = some (slots.idxOf s * (M * M)) := by
  have hlookup := lookup_zipIdx (M * M) 0 h
  rwa [Nat.zero_add] at hlookup

theorem contains_laidOut {s : Slot} : (laidOut stream M slots).contains s = true ↔ s ∈ slots := by
  constructor
  · intro h
    obtain ⟨p, hp, hs⟩ := List.lookup_isSome_iff.mp h
    obtain ⟨q, hq, rfl⟩ := List.mem_map.mp hp
    obtain rfl : s = q.1 := by simpa using hs
    exact List.fst_mem_of_mem_zipIdx hq
  · intro h
    rw [contains, offset?_laidOut h]
    rfl

theorem reserve_laidOut (s : Slot) : (laidOut stream M slots).reserve s =
    laidOut stream M (if s ∈ slots then slots else slots ++ [s]) := by
  unfold reserve
  by_cases h : s ∈ slots
  · rw [if_pos (contains_laidOut.mpr h), if_pos h]
  · rw [if_neg (mt contains_laidOut.mp h), if_neg h]
    simp [laidOut, List.zipIdx_append, Nat.add_mul]

/-- **The slabs of a grammar** are those of its distinct slots, in order. -/
theorem build_eq : build stream M categories = laidOut stream M (distinctSlots categories) := by
  unfold build distinctSlots
  generalize categories.flatMap Category.slots = slots
  induction slots using List.reverseRecOn with
  | nil => simp [laidOut, List.eraseDups_nil]
  | append_singleton slots s ih =>
    rw [List.foldl_concat, ih, reserve_laidOut, eraseDups_concat]

/-! ### The place of a term -/

/-- **The place of a contribution** in the stream. -/
def place (slots : List Slot) (M : Nat) (x : Term) : Nat :=
  slots.idxOf x.slot * M * M + x.head * M + x.argument

theorem term_laidOut {x : Term} (hs : x.slot ∈ slots) (hh : x.head < M) (ha : x.argument < M) :
    (laidOut stream M slots).term x = .ok (stream (place slots M x)) := by
  unfold term
  rw [offset?_laidOut hs]
  have hin : x.head < (laidOut stream M slots).maxLength ∧
      x.argument < (laidOut stream M slots).maxLength := ⟨hh, ha⟩
  simp only [if_pos hin, place, ← Nat.mul_assoc]
  rfl

theorem term_build_iff {x : Term} : (∃ v, (build stream M categories).term x = .ok v) ↔
    x.slot ∈ distinctSlots categories ∧ x.head < M ∧ x.argument < M := by
  rw [term_ok, contains_build, maxLength_build, Category.mem_distinctSlots]

theorem term_build {x : Term} {v : UInt64} (h : (build stream M categories).term x = .ok v) :
    v = stream (place (distinctSlots categories) M x) := by
  obtain ⟨hs, hh, ha⟩ := term_build_iff.mp ⟨v, h⟩
  rw [build_eq, term_laidOut hs hh ha] at h
  exact (Except.ok.inj h).symm

theorem digits_lt {n q r : Nat} (hq : q < n) (hr : r < M) : q * M + r < n * M := by
  have hle : (q + 1) * M ≤ n * M := Nat.mul_le_mul_right M hq
  rw [Nat.add_mul, Nat.one_mul] at hle
  omega

/-- A number in base `M` has one last digit, and one number before it. -/
theorem digits_inj {q q' r r' : Nat} (hr : r < M) (hr' : r' < M) (h : q * M + r = q' * M + r') :
    q = q' ∧ r = r' := by
  have hM : 0 < M := by omega
  have hq : q = q' := by
    have := congrArg (· / M) h
    simpa [Nat.mul_comm _ M, Nat.mul_add_div hM, Nat.div_eq_of_lt, hr, hr'] using this
  subst hq
  exact ⟨rfl, Nat.add_left_cancel h⟩

/-- **No two terms have one place.** -/
theorem place_inj {x y : Term} (hx : x.slot ∈ slots) (hxh : x.head < M) (hxa : x.argument < M)
    (hyh : y.head < M) (hya : y.argument < M) (h : place slots M x = place slots M y) : x = y := by
  unfold place at h
  rw [← Nat.add_mul, ← Nat.add_mul] at h
  obtain ⟨hq, ha⟩ := digits_inj hxa hya h
  obtain ⟨hslot, hh⟩ := digits_inj hxh hyh hq
  obtain ⟨slot, head, argument⟩ := x
  obtain ⟨slot', head', argument'⟩ := y
  obtain rfl : slot = slot' := (List.idxOf_inj hx).mp hslot
  obtain rfl : head = head' := hh
  obtain rfl : argument = argument' := ha
  rfl

/-- A place lies within the slabs. -/
theorem place_lt {x : Term} (hs : x.slot ∈ slots) (hh : x.head < M) (ha : x.argument < M) :
    place slots M x < slots.length * M * M := by
  rw [place, ← Nat.add_mul]
  exact digits_lt (digits_lt (List.idxOf_lt_length_of_mem hs) hh) ha

/-! ### Grammars that go on or repeat themselves -/

theorem build_again {before : List Category} {c : Category} (h : c ∈ before)
    (after : List Category) :
    build stream M (before ++ c :: after) = build stream M (before ++ after) := by
  rw [build_eq, build_eq, Category.distinctSlots_again h]

/-- The slots of further categories come after those that there are, and so do their slabs. -/
theorem term_build_append {x : Term} {v : UInt64}
    (h : (build stream M categories).term x = .ok v) (more : List Category) :
    (build stream M (categories ++ more)).term x = .ok v := by
  obtain ⟨hs, hh, ha⟩ := term_build_iff.mp ⟨v, h⟩
  obtain ⟨later, hlater⟩ := Category.distinctSlots_append categories more
  have hmem : x.slot ∈ distinctSlots (categories ++ more) := by
    rw [← hlater]
    exact List.mem_append_left later hs
  rw [build_eq, term_laidOut hmem hh ha, term_build h, place, place, ← hlater,
    List.idxOf_append_of_mem hs]

/-- **The layout of the table.** There is one slab for each slot of the grammar, and the slabs are
all that is drawn. The slots are those of the listed categories. With `M` words in the longest
sentence, slot `j` has the words of the stream from `j * M * M` on, row by row for the head, and a
row has a word for each argument. So no two terms have one word, none lies outside the slab of its
slot, and a category that is listed again changes nothing, and neither do further categories for the
terms that there are. -/
theorem layout_build (stream : Nat → UInt64) (M : Nat) (categories : List Category) :
    let t := build stream M categories
    let slots := distinctSlots categories
    (t.size = slots.length ∧ t.drawn = slots.length * M * M) ∧
      (∀ s : Slot, (t.contains s = true ↔ s ∈ slots) ∧
        (s ∈ slots ↔ s.category ∈ categories ∧ 1 ≤ s.index ∧ s.index ≤ s.category.arity)) ∧
      (∀ (j : Nat) (hj : j < slots.length) (head argument : Nat), head < M → argument < M →
        t.term ⟨slots[j], head, argument⟩ = .ok (stream (j * M * M + head * M + argument))) ∧
      (∀ (x y : Term) (v w : UInt64), t.term x = .ok v → t.term y = .ok w →
        place slots M x = place slots M y → x = y) ∧
      (∀ (x : Term) (v : UInt64), t.term x = .ok v → v = stream (place slots M x) ∧
        x.head * M + x.argument < M * M ∧ place slots M x < t.drawn) ∧
      (∀ (before after : List Category) (c : Category), categories = before ++ c :: after →
        c ∈ before → build stream M (before ++ after) = t) ∧
      ∀ (more : List Category) (x : Term) (v : UInt64), t.term x = .ok v →
        (build stream M (categories ++ more)).term x = .ok v := by
  intro t slots
  have ht : t = laidOut stream M slots := build_eq
  have hdrawn : t.drawn = slots.length * M * M := by
    rw [ht, laidOut, Nat.mul_assoc]
  refine ⟨⟨?_, hdrawn⟩, fun s => ⟨?_, Category.mem_distinctSlots⟩,
    fun j hj head argument hh ha => ?_, fun x y v w hx hy h => ?_, fun x v hx => ?_, ?_,
    fun more x v hx => term_build_append hx more⟩
  · rw [ht, size, laidOut, List.length_map, List.length_zipIdx]
  · rw [ht]
    exact contains_laidOut
  · rw [ht, term_laidOut (List.getElem_mem hj) hh ha, place,
      Category.nodup_distinctSlots.idxOf_getElem]
  · obtain ⟨hs, hh, ha⟩ := term_build_iff.mp ⟨v, hx⟩
    obtain ⟨-, hh', ha'⟩ := term_build_iff.mp ⟨w, hy⟩
    exact place_inj hs hh ha hh' ha' h
  · obtain ⟨hs, hh, ha⟩ := term_build_iff.mp ⟨v, hx⟩
    exact ⟨term_build hx, digits_lt hh ha, hdrawn ▸ place_lt hs hh ha⟩
  · rintro before after c hcategories hc
    exact (build_again hc after).symm.trans (congrArg (build stream M) hcategories.symm)

end ContributionTable

end CategorialChart
