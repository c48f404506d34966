import CategorialChart.Proofs.Category.Acceptance

/-! # Where a reading halts

A reading that fails leaves the text split in two: what it has read, and what it cannot go on with.
What it has read is a row of openings (`Opens`), each a parenthesis with perhaps an operand and a
slash before it, and then one of three things (`Halts`): nothing yet of the category that should
follow, a category whose parenthesis is not closed, or a category that is complete.

* `Viable`: the texts that begin the notation of a category.
* `Opens`, `Lead`: what stands before a category and before an operand, however deep in parentheses.
  A reading that fails in such a place fails as a whole (`Opens.read_error`).
* `primary_halts`, `extend_halts`: there are no other ways to halt. The cases follow the recursion
  of the reader.
* `parse_halts`: so a text that is rejected is split at the offset of its error. -/

namespace CategorialChart.Category

/-! ### Unfinished texts -/

/-- The text begins the notation of a category. -/
def Viable (s : List Char) : Prop := ∃ more c, Derives (s ++ more) c

theorem Viable.of_append {s t : List Char} (h : Viable (s ++ t)) : Viable s := by
  obtain ⟨more, c, hc⟩ := h
  exact ⟨t ++ more, c, by rwa [← List.append_assoc]⟩

/-- What stands in front of an operand: nothing, or a category and a slash. -/
def Lead (u : List Char) : Prop :=
  u = [] ∨ ∃ s c, ∃ d : Slash, Derives s c ∧ u = s ++ [d.char]

/-- **A category starts after the text**: the text is empty, or a parenthesis opens at its end. -/
inductive Opens : List Char → Prop
  | start : Opens []
  | paren {s u : List Char} : Opens s → Lead u → Opens (s ++ u ++ ['('])

variable {s u v w before after : List Char} {a c : Category} {e : Stuck} {f : Fault}

theorem Lead.derives (hu : Lead u) (hv : DerivesPrimary v a) : ∃ c, Derives (u ++ v) c := by
  rcases hu with rfl | ⟨s, c, d, hs, rfl⟩
  · exact ⟨a, .primary hv⟩
  · refine ⟨.functor c d a, ?_⟩
    rw [List.append_assoc, List.singleton_append]
    exact .slash d hs hv

/-- A category that stands where one starts can be gone on with: its parentheses can be closed. -/
theorem Opens.viable (hs : Opens s) (hv : Derives v c) : Viable (s ++ v) := by
  induction hs generalizing v c with
  | start => exact ⟨[], c, by rwa [List.append_nil]⟩
  | paren _ hu ih =>
    obtain ⟨a, ha⟩ := hu.derives (.enclosed hv)
    obtain ⟨more, c', h⟩ := ih ha
    exact ⟨')' :: more, c', by simpa using h⟩

theorem derivesPrimary_letter : DerivesPrimary ['N'] (.atom "N" none) :=
  .plain (Or.inl ⟨List.cons_ne_nil _ _, by simp⟩)

theorem Opens.viable_paren (hs : Opens s) (hu : Lead u) : Viable (s ++ u ++ ['(']) :=
  ((hs.paren hu).viable (.primary derivesPrimary_letter)).of_append

/-! ### Failures come through -/

theorem primary_of_read_error (h : read w = .error e) : primary ('(' :: w) = .error e := by
  unfold read at h
  rw [primary]
  rcases hfirst : primary w with e' | first
  · rw [hfirst] at h
    cases h
    rfl
  · rw [hfirst] at h
    have hextend : first.extend = .error e := h
    simp only [bind, Except.bind, hextend]

theorem Lead.read_error (hu : Lead u) (h : primary w = .error e) : read (u ++ w) = .error e := by
  rcases hu with rfl | ⟨s, c, d, hs, rfl⟩
  · unfold read
    rw [List.nil_append, h]
    rfl
  · rw [List.append_assoc, List.singleton_append]
    obtain ⟨hlt, hread⟩ := read_complete hs ((stops_slash d w).ends s) rfl
    exact hread.trans (extend_of_primary_error (splitSlash_eq_some.mpr rfl) h)

/-- **A category that cannot be read** where one starts is the failure of the whole text. -/
theorem Opens.read_error (hs : Opens s) (h : read w = .error e) : read (s ++ w) = .error e := by
  induction hs generalizing w with
  | start => exact h
  | @paren s u _ hu ih =>
    have heq : s ++ u ++ ['('] ++ w = s ++ (u ++ '(' :: w) := by simp
    rw [heq]
    exact ih (hu.read_error (primary_of_read_error h))

theorem not_derives_of_read_error (h : read w = .error e) : ¬ Derives w c := by
  rw [← read_eq_ok_iff]
  rintro ⟨r, hr, -⟩
  rw [h] at hr
  cases hr

/-- A category is read up to where it ends, if no slash follows. -/
theorem read_whole (hv : Derives v c) (hends : Ends v w) (hslash : splitSlash w = none) :
    ∃ h, read (v ++ w) = .ok ⟨c, w, h⟩ := by
  obtain ⟨hlt, hread⟩ := read_complete hv hends rfl
  rw [extend_of_splitSlash hslash] at hread
  exact ⟨hlt, hread⟩

/-! ### How a reading halts -/

/-- **How a reading halts** after `before`, in front of `after`. -/
inductive Halts (after : List Char) : List Char → Fault → Prop
  | expected {s u : List Char} : Opens s → Lead u →
      (∀ c ∈ after.head?, c ≠ '(' ∧ c.isAlpha = false ∧ isMark c = false) →
      Halts after (s ++ u) .expectedCategory
  | missing {s u v : List Char} {c : Category} : Opens s → Lead u → Derives v c → Apart v after →
      (∀ d : Slash, after.head? ≠ some d.char) → after.head? ≠ some ')' →
      Halts after (s ++ u ++ '(' :: v) .missingParen
  | unexpected {v : List Char} {c : Category} : Derives v c → Apart v after →
      (∀ d : Slash, after.head? ≠ some d.char) → after ≠ [] →
      Halts after v (.unexpected (String.ofList after))

theorem splitName_eq_none {cs : List Char} :
    splitName cs = none ↔ ∀ c ∈ cs.head?, c.isAlpha = false ∧ isMark c = false := by
  cases cs with
  | nil => simp [splitName]
  | cons c cs => cases ha : c.isAlpha <;> cases hm : isMark c <;> simp [splitName, ha, hm]

theorem splitSlash_eq_none {cs : List Char} :
    splitSlash cs = none ↔ ∀ d : Slash, cs.head? ≠ some d.char := by
  rw [Option.eq_none_iff_forall_ne_some]
  constructor
  · intro h d hd
    obtain ⟨rest, rfl⟩ := List.head?_eq_some_iff.mp hd
    exact h _ (splitSlash_eq_some.mpr rfl)
  · rintro h ⟨d, rest⟩ hd
    rw [splitSlash_eq_some] at hd
    rw [hd] at h
    exact h d rfl

theorem primary_eq_error (hparen : ∀ inner, w ≠ '(' :: inner) (hname : splitName w = none) :
    primary w = .error ⟨.expectedCategory, w⟩ := by
  rw [primary_of_readAtom hparen]
  exact readAtom_eq_error hname

theorem Reading.close_eq_error {cs : List Char} {r : Reading cs} (h : r.rest.head? ≠ some ')') :
    r.close = .error ⟨.missingParen, r.rest⟩ := by
  unfold Reading.close
  split
  · next hr =>
    rw [hr] at h
    exact absurd rfl h
  · rfl

theorem Reading.finish_eq_error {cs : List Char} {r : Reading cs} (h : r.rest ≠ []) :
    r.finish = .error ⟨.unexpected (String.ofList r.rest), r.rest⟩ := by
  unfold Reading.finish
  rw [if_neg (by simpa using h)]

-- Where the reader stands is carried along as `Opens s` and `Lead u`: a parenthesis makes both part
-- of a longer opening, and a slash makes a category that was read the lead of the next operand.
mutual

/-- **A primary that cannot be read** halts in one of these ways. -/
theorem primary_halts : ∀ (cs : List Char) (e : Stuck), primary cs = .error e →
    ∀ {s u : List Char}, Opens s → Lead u →
      ∃ t, cs = t ++ e.rest ∧ Halts e.rest (s ++ u ++ t) e.fault
  | cs, e, h, s, u, hs, hu => by
    by_cases hp : ∃ inner, cs = '(' :: inner
    · obtain ⟨inner, rfl⟩ := hp
      have hopen : Opens (s ++ u ++ ['(']) := hs.paren hu
      rw [primary] at h
      rcases hfirst : primary inner with e' | first
      · rw [hfirst] at h
        cases h
        obtain ⟨t, ht, hhalts⟩ := primary_halts inner e hfirst hopen (Or.inl rfl)
        exact ⟨'(' :: t, by rw [ht, List.cons_append], by simpa using hhalts⟩
      rw [hfirst] at h
      obtain ⟨t, ht, hderives, hapart⟩ := primary_sound inner first hfirst
      rcases hlast : first.extend with e' | last
      · simp only [bind, Except.bind, hlast] at h
        cases h
        obtain ⟨t', ht', hhalts⟩ := extend_halts first e hlast hopen ht (.primary hderives)
        exact ⟨'(' :: t', by rw [ht', List.cons_append], by simpa using hhalts⟩
      simp only [bind, Except.bind, hlast] at h
      obtain ⟨v, hv, hderives', hapart', hslash⟩ :=
        extend_sound first last hlast t ht (.primary hderives) hapart
      have hclose : last.rest.head? ≠ some ')' := by
        intro hc
        obtain ⟨rest, hrest⟩ := List.head?_eq_some_iff.mp hc
        obtain ⟨_, hok⟩ := Reading.close_complete hrest
        cases h.symm.trans hok
      cases h.symm.trans (Reading.close_eq_error hclose)
      exact ⟨'(' :: v, congrArg ('(' :: ·) hv,
        .missing hs hu hderives' hapart' (splitSlash_eq_none.mp hslash) hclose⟩
    · have hp' : ∀ inner, cs ≠ '(' :: inner := fun inner he => hp ⟨inner, he⟩
      have hname : splitName cs = none := by
        rw [primary_of_readAtom hp'] at h
        unfold readAtom at h
        split at h
        · next hn => exact hn
        · split at h <;> cases h
      cases h.symm.trans (primary_eq_error hp' hname)
      refine ⟨[], rfl, ?_⟩
      rw [List.append_nil]
      refine .expected hs hu fun c hc => ⟨?_, splitName_eq_none.mp hname c hc⟩
      rintro rfl
      obtain ⟨inner, rfl⟩ := List.head?_eq_some_iff.mp hc
      exact hp' inner rfl
termination_by cs => cs.length
decreasing_by
  · simp [*]
  · have := first.shorter
    simp only [*, List.length_cons] at *
    omega

/-- **A category that cannot be read to its end** halts in one of these ways. -/
theorem extend_halts : ∀ {cs : List Char} (r : Reading cs) (e : Stuck), r.extend = .error e →
    ∀ {s v : List Char}, Opens s → cs = v ++ r.rest → Derives v r.category →
      ∃ t, cs = t ++ e.rest ∧ Halts e.rest (s ++ t) e.fault
  | cs, r, e, h, s, v, hs, hv, hderives => by
    rw [Reading.extend] at h
    split at h
    · cases h
    · next d rest hd =>
      have hlt := length_of_splitSlash hd
      rw [splitSlash_eq_some.mp hd] at hv
      rcases hnext : primary rest with e' | next
      · rw [hnext] at h
        cases h
        obtain ⟨t, ht, hhalts⟩ :=
          primary_halts rest e hnext hs (Or.inr ⟨v, r.category, d, hderives, rfl⟩)
        refine ⟨v ++ d.char :: t, ?_, by simpa using hhalts⟩
        rw [hv, ht, List.append_assoc, List.cons_append]
      rw [hnext] at h
      have hlt' := Nat.lt_trans next.shorter hlt
      obtain ⟨t, ht, hprimary, -⟩ := primary_sound rest next hnext
      refine extend_halts _ e h (v := v ++ d.char :: t) hs ?_ (.slash d hderives hprimary)
      refine hv.trans ?_
      simpa using ht
termination_by _ r => r.rest.length
decreasing_by
  · exact hlt
  · exact hlt'

end

theorem read_halts {cs : List Char} (h : read cs = .error e) :
    ∃ t, cs = t ++ e.rest ∧ Halts e.rest t e.fault := by
  unfold read at h
  rcases hfirst : primary cs with e' | first
  · rw [hfirst] at h
    cases h
    exact primary_halts cs e hfirst .start (Or.inl rfl)
  · rw [hfirst] at h
    obtain ⟨t, ht, hderives, -⟩ := primary_sound cs first hfirst
    exact extend_halts first e h .start ht (.primary hderives)

theorem byteLength_append (s t : List Char) :
    byteLength (s ++ t) = byteLength s + byteLength t := by
  induction s with
  | nil => exact (Nat.zero_add _).symm
  | cons c s ih => rw [List.cons_append, byteLength, byteLength, ih, Nat.add_assoc]

/-- A text that writes no category is split where its reading halts. -/
theorem parse_halts {t : String} {e : ParseError} (h : parse t = .error e) :
    ∃ before after, t.toList = before ++ after ∧ e.offset = byteLength before ∧
      Halts after before e.fault := by
  have hstuck : ∀ (e' : Stuck) {before : List Char}, t.toList = before ++ e'.rest →
      e'.inText t = e → Halts e'.rest before e'.fault →
        ∃ before after, t.toList = before ++ after ∧ e.offset = byteLength before ∧
          Halts after before e.fault := by
    rintro e' before ht rfl hhalts
    refine ⟨before, e'.rest, ht, ?_, hhalts⟩
    rw [Stuck.inText, ht, byteLength_append, Nat.add_sub_cancel]
  unfold parse at h
  rcases hread : read t.toList with e' | r
  · obtain ⟨before, ht, hhalts⟩ := read_halts hread
    rw [hread] at h
    exact hstuck e' ht (Except.error.inj h) hhalts
  · obtain ⟨v, hv, hderives, hapart, hslash⟩ := read_sound hread
    rw [hread] at h
    have hrest : r.rest ≠ [] := by
      intro hnil
      have hok : r.finish = .ok r.category := Reading.finish_eq_ok.mpr ⟨hnil, rfl⟩
      simp only [bind, Except.bind, hok] at h
      cases h
    simp only [bind, Except.bind, Reading.finish_eq_error hrest] at h
    exact hstuck ⟨_, r.rest⟩ hv (Except.error.inj h)
      (.unexpected hderives hapart (splitSlash_eq_none.mp hslash) hrest)

end CategorialChart.Category
