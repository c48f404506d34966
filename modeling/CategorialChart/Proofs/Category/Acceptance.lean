import CategorialChart.Category.Grammar
import CategorialChart.Category.Reading
import Mathlib.Data.List.TakeWhile

/-! # Reading accepts the grammar

`Category.parse` reads a category exactly from the texts that write it, `Derives`.

* `primary_sound`, `extend_sound`: what has been read off the front of a text writes the category of
  the reading, and the reader has taken all letters and slashes that it could.
* `primary_complete`, `read_complete`: what writes a category is read as this category, in front of
  any text at which it `Ends`. So it does where an atom stops (`Stops`): what follows a category
  that stands alone is such a text, and so is what follows each operand within it.
* `parse_eq_ok_iff`: both together, for a whole text. As a function reads it, a text writes at most
  one category.

Slashes associate to the left, but the reader goes from left to right. So `read_complete` does not
say that all of a text is read: it says that the reader gets past it, with its category in hand, and
goes on with what follows. -/

namespace CategorialChart.Category

/-! ### Names and features -/

/-- An atom in front of the text ends there. -/
def Stops (rest : List Char) : Prop := ∀ c ∈ rest.head?, c = ')' ∨ c = '/' ∨ c = '\\'

theorem stops_nil : Stops [] := by
  intro c hc
  cases hc

theorem stops_paren (rest : List Char) : Stops (')' :: rest) := by
  intro c hc
  cases hc
  exact Or.inl rfl

theorem stops_slash (d : Slash) (rest : List Char) : Stops (d.char :: rest) := by
  intro c hc
  cases hc
  cases d
  · exact Or.inr (Or.inl rfl)
  · exact Or.inr (Or.inr rfl)

theorem Stops.not_alpha {rest : List Char} (h : Stops rest) :
    ∀ c ∈ rest.head?, c.isAlpha = false := by
  intro c hc
  rcases h c hc with rfl | rfl | rfl <;> rfl

/-- No letter at the end of `s` touches a letter of `rest`. -/
def Apart (s rest : List Char) : Prop :=
  ∀ d ∈ s.getLast?, d.isAlpha = true → ∀ c ∈ rest.head?, c.isAlpha = false

theorem apart_of_head {s rest : List Char} (h : ∀ c ∈ rest.head?, c.isAlpha = false) :
    Apart s rest :=
  fun _ _ _ => h

/-- After a character that is no letter, letters may follow. -/
theorem apart_concat {d : Char} (hd : d.isAlpha = false) (s rest : List Char) :
    Apart (s ++ [d]) rest := by
  intro d' hd' halpha
  rw [List.getLast?_concat, Option.mem_some_iff] at hd'
  rw [← hd', hd] at halpha
  cases halpha

theorem isAlpha_slash (d : Slash) : d.char.isAlpha = false := by cases d <;> rfl

theorem apart_slash (s t rest : List Char) (d : Slash) :
    Apart (s ++ d.char :: t) rest ↔ Apart t rest := by
  have hlast : (s ++ d.char :: t).getLast? = some (t.getLast?.getD d.char) := by
    rw [List.getLast?_append, List.getLast?_cons, Option.some_or]
  unfold Apart
  rw [hlast]
  rcases t.getLast? with _ | e
  · simp [isAlpha_slash]
  · rfl

/-- **The text `s` ends in front of `rest`**: neither a name nor a feature goes on there. -/
structure Ends (s rest : List Char) : Prop where
  apart : Apart s rest
  bracket : rest.head? ≠ some '['

theorem Stops.ends {rest : List Char} (h : Stops rest) (s : List Char) : Ends s rest where
  apart := apart_of_head h.not_alpha
  bracket hb := by
    have := h '[' hb
    simp at this

theorem isMark_iff {c : Char} : isMark c = true ↔ c ∈ [',', '.', ';', ':'] := by
  simp [isMark, or_assoc]

/-- A run of letters ends where the next character is none. -/
theorem span_letters {run rest : List Char} (hrun : ∀ c ∈ run, c.isAlpha = true)
    (hrest : ∀ c ∈ rest.head?, c.isAlpha = false) :
    (run ++ rest).takeWhile Char.isAlpha = run ∧ (run ++ rest).dropWhile Char.isAlpha = rest := by
  have hnil : rest.takeWhile Char.isAlpha = [] ∧ rest.dropWhile Char.isAlpha = rest := by
    cases rest with
    | nil => exact ⟨rfl, rfl⟩
    | cons c cs =>
      have hc := hrest c rfl
      simp [hc]
  rw [List.takeWhile_append_of_pos hrun, List.dropWhile_append_of_pos hrun, hnil.1, hnil.2,
    List.append_nil]
  exact ⟨rfl, rfl⟩

theorem isAlpha_of_isMark {c : Char} (h : isMark c = true) : c.isAlpha = false := by
  rw [isMark_iff] at h
  simp only [List.mem_cons, List.not_mem_nil, or_false] at h
  rcases h with rfl | rfl | rfl | rfl <;> rfl

theorem isName_of_splitName {cs name rest : List Char} (h : splitName cs = some (name, rest)) :
    IsName name ∧ cs = name ++ rest ∧ Apart name rest := by
  cases cs with
  | nil => cases h
  | cons c cs =>
    rw [splitName] at h
    split at h
    · next hc =>
      obtain ⟨rfl, rfl⟩ := Prod.mk.inj (Option.some.inj h)
      refine ⟨Or.inl ⟨List.cons_ne_nil _ _, ?_⟩, ?_, apart_of_head ?_⟩
      · intro d hd
        rcases List.mem_cons.mp hd with rfl | hd
        · exact hc
        · exact List.mem_takeWhile_imp hd
      · rw [List.cons_append, List.takeWhile_append_dropWhile]
      · intro d hd
        have hstop := List.head?_dropWhile_not Char.isAlpha cs
        rwa [Option.mem_def.mp hd] at hstop
    · split at h
      · next hc =>
        obtain ⟨rfl, rfl⟩ := Prod.mk.inj (Option.some.inj h)
        exact ⟨Or.inr ⟨c, isMark_iff.mp hc, rfl⟩, rfl, apart_concat (isAlpha_of_isMark hc) [] _⟩
      · cases h

theorem IsName.not_paren {name : List Char} (h : IsName name) (rest inner : List Char) :
    name ++ rest ≠ '(' :: inner := by
  intro he
  rcases h with ⟨hne, hrun⟩ | ⟨c, hc, rfl⟩
  · obtain ⟨c, run, rfl⟩ := List.exists_cons_of_ne_nil hne
    have hc : c = '(' := (List.cons.inj he).1
    have := hrun c List.mem_cons_self
    rw [hc] at this
    cases this
  · have hp : c = '(' := (List.cons.inj he).1
    rw [hp] at hc
    simp at hc

theorem splitName_append {name rest : List Char} (hname : IsName name) (hrest : Apart name rest) :
    splitName (name ++ rest) = some (name, rest) := by
  rcases hname with ⟨hne, hrun⟩ | ⟨c, hc, rfl⟩
  · have hhead := hrest _ (List.getLast_mem_getLast? hne) (hrun _ (List.getLast_mem hne))
    obtain ⟨c, run, rfl⟩ := List.exists_cons_of_ne_nil hne
    obtain ⟨h1, h2⟩ := span_letters (fun d hd => hrun d (List.mem_cons_of_mem _ hd)) hhead
    rw [List.cons_append, splitName, if_pos (hrun c List.mem_cons_self), h1, h2]
  · have hmark := isMark_iff.mpr hc
    rw [List.singleton_append, splitName, isAlpha_of_isMark hmark, if_neg Bool.false_ne_true,
      if_pos hmark]

theorem isFeature_of_splitFeature {cs feature rest : List Char}
    (h : splitFeature cs = some (feature, rest)) :
    IsFeature feature ∧ cs = '[' :: (feature ++ ']' :: rest) := by
  unfold splitFeature at h
  split at h
  · next cs =>
    split at h
    · next f fs r hrun hr =>
      obtain ⟨rfl, rfl⟩ := Prod.mk.inj (Option.some.inj h)
      refine ⟨⟨List.cons_ne_nil _ _, ?_⟩, ?_⟩
      · intro c hc
        rw [← hrun] at hc
        exact List.mem_takeWhile_imp hc
      · rw [← hrun, ← hr, List.takeWhile_append_dropWhile]
    · cases h
  · cases h

theorem splitFeature_append {feature : List Char} (h : IsFeature feature) (rest : List Char) :
    splitFeature ('[' :: (feature ++ ']' :: rest)) = some (feature, rest) := by
  obtain ⟨hne, hrun⟩ := h
  obtain ⟨f, fs, rfl⟩ := List.exists_cons_of_ne_nil hne
  have hend : ∀ c ∈ (']' :: rest).head?, c.isAlpha = false := by
    intro c hc
    cases hc
    rfl
  obtain ⟨h1, h2⟩ := span_letters hrun hend
  rw [splitFeature, h1, h2]
  rfl

theorem splitFeature_eq_none {rest : List Char} (h : rest.head? ≠ some '[') :
    splitFeature rest = none := by
  unfold splitFeature
  split
  · exact absurd rfl h
  · rfl

/-! ### Atoms -/

/-- An atom that was read is a name, alone or with the feature that follows it. -/
theorem readAtom_sound {cs : List Char} {r : Reading cs} (h : readAtom cs = .ok r) :
    ∃ s, cs = s ++ r.rest ∧ DerivesPrimary s r.category ∧ Apart s r.rest := by
  unfold readAtom at h
  split at h
  · cases h
  · next name rest hn =>
    obtain ⟨hname, rfl, hapart⟩ := isName_of_splitName hn
    split at h
    · cases h
      exact ⟨name, rfl, .plain hname, hapart⟩
    · next feature rest' hf =>
      obtain ⟨hfeature, rfl⟩ := isFeature_of_splitFeature hf
      cases h
      refine ⟨name ++ '[' :: (feature ++ [']']), by simp, .featured hname hfeature, ?_⟩
      rw [← List.cons_append, ← List.append_assoc]
      exact apart_concat rfl _ rest'

theorem readAtom_eq_error {cs : List Char} (h : splitName cs = none) :
    readAtom cs = .error ⟨.expectedCategory, cs⟩ := by
  unfold readAtom
  split
  · rfl
  · next h' => cases h.symm.trans h'

theorem readAtom_plain {cs name rest : List Char} (hn : splitName cs = some (name, rest))
    (hf : splitFeature rest = none) :
    ∃ h, readAtom cs = .ok ⟨.atom (String.ofList name) none, rest, h⟩ := by
  have hlen := length_of_splitName hn
  refine ⟨hlen, ?_⟩
  unfold readAtom
  split
  · next h => rw [hn] at h; cases h
  · next name' rest' h =>
    rw [hn] at h
    obtain ⟨rfl, rfl⟩ := Prod.mk.inj (Option.some.inj h)
    split
    · rfl
    · next h' => rw [hf] at h'; cases h'

theorem readAtom_featured {cs name feature rest rest' : List Char}
    (hn : splitName cs = some (name, rest)) (hf : splitFeature rest = some (feature, rest')) :
    ∃ h, readAtom cs =
      .ok ⟨.atom (String.ofList name) (some (String.ofList feature)), rest', h⟩ := by
  have hlen := length_of_splitName hn
  have hlen' := length_of_splitFeature hf
  refine ⟨by omega, ?_⟩
  unfold readAtom
  split
  · next h => rw [hn] at h; cases h
  · next name' rest' h =>
    rw [hn] at h
    obtain ⟨rfl, rfl⟩ := Prod.mk.inj (Option.some.inj h)
    split
    · next h' => rw [hf] at h'; cases h'
    · next h' =>
      rw [hf] at h'
      obtain ⟨rfl, rfl⟩ := Prod.mk.inj (Option.some.inj h')
      rfl

/-! ### Slashes and parentheses -/

theorem splitSlash_eq_some {cs rest : List Char} {d : Slash} :
    splitSlash cs = some (d, rest) ↔ cs = d.char :: rest := by
  constructor
  · intro h
    unfold splitSlash at h
    split at h
    · cases h; rfl
    · cases h; rfl
    · cases h
  · rintro rfl
    cases d <;> rfl

theorem Reading.close_sound {cs : List Char} {r : Reading cs} {r' : Reading ('(' :: cs)}
    (h : r.close = .ok r') : r.rest = ')' :: r'.rest ∧ r'.category = r.category := by
  unfold Reading.close at h
  split at h
  · next rest hr =>
    cases h
    exact ⟨hr, rfl⟩
  · cases h

theorem Reading.close_complete {cs : List Char} {r : Reading cs} {rest : List Char}
    (hr : r.rest = ')' :: rest) : ∃ h, r.close = .ok ⟨r.category, rest, h⟩ := by
  have hlen := r.shorter
  rw [hr, List.length_cons] at hlen
  refine ⟨by rw [List.length_cons]; omega, ?_⟩
  unfold Reading.close
  split
  · next rest' hr' =>
    cases hr.symm.trans hr'
    rfl
  · next h => exact absurd hr (h rest)

/-! ### The descent -/

theorem primary_of_readAtom {cs : List Char} (h : ∀ inner, cs ≠ '(' :: inner) :
    primary cs = readAtom cs := by
  rw [primary]
  exact fun inner he => h inner he

mutual

/-- **What has been read as a primary** writes its category. -/
theorem primary_sound : ∀ (cs : List Char) (r : Reading cs), primary cs = .ok r →
    ∃ s, cs = s ++ r.rest ∧ DerivesPrimary s r.category ∧ Apart s r.rest
  | cs, r, h => by
    by_cases hp : ∃ inner, cs = '(' :: inner
    · obtain ⟨inner, rfl⟩ := hp
      rw [primary] at h
      rcases hfirst : primary inner with e | first
      · rw [hfirst] at h
        cases h
      rcases hlast : first.extend with e | last
      · rw [hfirst] at h
        simp only [bind, Except.bind, hlast] at h
        cases h
      rw [hfirst] at h
      simp only [bind, Except.bind, hlast] at h
      obtain ⟨t, ht, hderives, hapart⟩ := primary_sound inner first hfirst
      obtain ⟨s, hs, hs', -⟩ := extend_sound first last hlast t ht (.primary hderives) hapart
      obtain ⟨hrest, hcat⟩ := Reading.close_sound h
      refine ⟨'(' :: (s ++ [')']), ?_, ?_, apart_concat rfl ('(' :: s) _⟩
      · rw [hrest] at hs
        simpa using hs
      · rw [hcat]
        exact .enclosed hs'
    · have hp' : ∀ inner, cs ≠ '(' :: inner := fun inner he => hp ⟨inner, he⟩
      rw [primary_of_readAtom hp'] at h
      exact readAtom_sound h
termination_by cs => cs.length
decreasing_by
  · simp [*]
  · have := first.shorter
    simp only [*, List.length_cons] at *
    omega

/-- **What has been read with the slashes after it** writes its category, and no slash is left. -/
theorem extend_sound : ∀ {cs : List Char} (r r' : Reading cs), r.extend = .ok r' →
    ∀ s, cs = s ++ r.rest → Derives s r.category → Apart s r.rest →
      ∃ s', cs = s' ++ r'.rest ∧ Derives s' r'.category ∧ Apart s' r'.rest ∧
        splitSlash r'.rest = none
  | cs, r, r', h, s, hs, hderives, hapart => by
    rw [Reading.extend] at h
    split at h
    · next hd =>
      cases h
      exact ⟨s, hs, hderives, hapart, hd⟩
    · next d rest hd =>
      have hlt := length_of_splitSlash hd
      rcases hnext : primary rest with e | next
      · rw [hnext] at h
        cases h
      rw [hnext] at h
      have hlt' := Nat.lt_trans next.shorter hlt
      obtain ⟨t, ht, hprimary, hapart'⟩ := primary_sound rest next hnext
      refine extend_sound _ r' h (s ++ d.char :: t) ?_ (.slash d hderives hprimary)
        ((apart_slash s t next.rest d).mpr hapart')
      rw [splitSlash_eq_some.mp hd] at hs
      refine hs.trans ?_
      simpa using ht
termination_by _ r => r.rest.length
decreasing_by
  · exact hlt
  · exact hlt'

end

theorem extend_of_splitSlash {cs : List Char} {r : Reading cs} (h : splitSlash r.rest = none) :
    r.extend = .ok r := by
  rw [Reading.extend]
  split
  · rfl
  · next h' => cases h.symm.trans h'

theorem extend_of_primary_error {cs rest : List Char} {r : Reading cs} {slash : Slash} {e : Stuck}
    (hs : splitSlash r.rest = some (slash, rest)) (h : primary rest = .error e) :
    r.extend = .error e := by
  rw [Reading.extend]
  split
  · next hs' => cases hs.symm.trans hs'
  · next hs' =>
    cases hs.symm.trans hs'
    rw [h]
    rfl

theorem extend_of_primary {cs rest : List Char} {r : Reading cs} {slash : Slash}
    {next : Reading rest} (hs : splitSlash r.rest = some (slash, rest))
    (h : primary rest = .ok next) :
    ∃ hlt, r.extend =
      (⟨.functor r.category slash next.category, next.rest, hlt⟩ : Reading cs).extend := by
  have hlt : next.rest.length < cs.length := by
    have := r.shorter
    have := next.shorter
    have := length_of_splitSlash hs
    omega
  refine ⟨hlt, ?_⟩
  rw [Reading.extend]
  split
  · next hs' => cases hs.symm.trans hs'
  · next hs' =>
    cases hs.symm.trans hs'
    rw [h]
    rfl

/-- An atom in front of a text at which it ends. -/
theorem primary_plain {name rest : List Char} (hname : IsName name) (hrest : Ends name rest) :
    ∃ h, primary (name ++ rest) = .ok ⟨.atom (String.ofList name) none, rest, h⟩ := by
  rw [primary_of_readAtom (hname.not_paren rest)]
  exact readAtom_plain (splitName_append hname hrest.apart) (splitFeature_eq_none hrest.bracket)

theorem primary_featured {name feature : List Char} (rest : List Char) (hname : IsName name)
    (hfeature : IsFeature feature) :
    ∃ h, primary (name ++ '[' :: (feature ++ ']' :: rest)) =
      .ok ⟨.atom (String.ofList name) (some (String.ofList feature)), rest, h⟩ := by
  rw [primary_of_readAtom (hname.not_paren _)]
  refine readAtom_featured (splitName_append hname (apart_of_head ?_))
    (splitFeature_append hfeature rest)
  intro c hc
  cases hc
  rfl

theorem read_of_primary {cs : List Char} {first : Reading cs} (h : primary cs = .ok first) :
    read cs = first.extend := by
  unfold read
  rw [h]
  rfl

theorem primary_of_read {inner : List Char} {r : Reading inner} (h : read inner = .ok r) :
    primary ('(' :: inner) = r.close := by
  unfold read at h
  rw [primary]
  rcases hfirst : primary inner with e | first
  · rw [hfirst] at h
    cases h
  · rw [hfirst] at h
    have hextend : first.extend = .ok r := h
    simp only [bind, Except.bind, hextend]

mutual

/-- **A primary is read** in front of a text at which it ends. -/
theorem primary_complete : ∀ {s : List Char} {c : Category}, DerivesPrimary s c →
    ∀ {rest cs : List Char}, Ends s rest → cs = s ++ rest →
      ∃ h, primary cs = .ok ⟨c, rest, h⟩
  | _, _, .plain hname, rest, cs, hrest, hcs => by
    subst hcs
    exact primary_plain hname hrest
  | _, _, .featured hname hfeature, rest, cs, hrest, hcs => by
    subst hcs
    rw [List.append_assoc, List.cons_append, List.append_assoc, List.singleton_append]
    exact primary_featured rest hname hfeature
  | _, _, .enclosed (s := s) (c := c) hs, rest, cs, hrest, hcs => by
    have hcs' : cs = '(' :: (s ++ ')' :: rest) := by simpa using hcs
    subst hcs'
    obtain ⟨hlt, hread⟩ := read_complete hs ((stops_paren rest).ends s) rfl
    -- no slash follows the category: it is complete
    rw [extend_of_splitSlash rfl] at hread
    rw [primary_of_read hread]
    exact Reading.close_complete rfl

/-- **A category is read** in front of such a text, and the reader goes on with the slashes of the
text. -/
theorem read_complete : ∀ {s : List Char} {c : Category}, Derives s c →
    ∀ {rest cs : List Char}, Ends s rest → cs = s ++ rest →
      ∃ h, read cs = (⟨c, rest, h⟩ : Reading cs).extend
  | _, _, .primary hs, rest, cs, hrest, hcs => by
    obtain ⟨h, hfirst⟩ := primary_complete hs hrest hcs
    exact ⟨h, read_of_primary hfirst⟩
  | _, _, .slash (s := s) (t := t) d hs ht, rest, cs, hrest, hcs => by
    have hcs' : cs = s ++ d.char :: (t ++ rest) := by simpa using hcs
    obtain ⟨hlt, hread⟩ := read_complete hs ((stops_slash d _).ends s) hcs'
    have hends : Ends t rest := ⟨(apart_slash s t rest d).mp hrest.apart, hrest.bracket⟩
    obtain ⟨hnext, hprimary⟩ := primary_complete ht hends rfl
    obtain ⟨hlt', hextend⟩ := extend_of_primary (r := ⟨_, d.char :: (t ++ rest), hlt⟩)
      (splitSlash_eq_some.mpr rfl) hprimary
    exact ⟨hlt', hread.trans hextend⟩

end

/-! ### Whole texts -/

theorem Reading.finish_eq_ok {cs : List Char} {r : Reading cs} {c : Category} :
    r.finish = .ok c ↔ r.rest = [] ∧ r.category = c := by
  unfold Reading.finish
  rcases hr : r.rest with _ | ⟨d, rest⟩
  · simp
  · simp

/-- **What has been read** writes its category, and the reader could not go on. -/
theorem read_sound {cs : List Char} {r : Reading cs} (h : read cs = .ok r) :
    ∃ s, cs = s ++ r.rest ∧ Derives s r.category ∧ Apart s r.rest ∧ splitSlash r.rest = none := by
  unfold read at h
  rcases hfirst : primary cs with e | first
  · rw [hfirst] at h
    cases h
  · rw [hfirst] at h
    obtain ⟨t, ht, hderives, hapart⟩ := primary_sound cs first hfirst
    exact extend_sound first r h t ht (.primary hderives) hapart

/-- Reading to the end of a text gives what the text writes. -/
theorem read_eq_ok_iff {cs : List Char} {c : Category} :
    (∃ r, read cs = .ok r ∧ r.rest = [] ∧ r.category = c) ↔ Derives cs c := by
  constructor
  · rintro ⟨r, hr, hrest, rfl⟩
    obtain ⟨s, hs, hs', -⟩ := read_sound hr
    rw [hrest, List.append_nil] at hs
    subst hs
    exact hs'
  · intro h
    obtain ⟨hlt, hread⟩ := read_complete h (stops_nil.ends cs) (List.append_nil cs).symm
    rw [extend_of_splitSlash rfl] at hread
    exact ⟨⟨c, [], hlt⟩, hread, rfl, rfl⟩

/-- **A text is read as the category that it writes.** -/
theorem parse_eq_ok_iff {t : String} {c : Category} :
    parse t = .ok c ↔ Derives t.toList c := by
  rw [← read_eq_ok_iff]
  unfold parse
  rcases hread : read t.toList with e | r
  · simp [bind, Except.bind, Except.mapError]
  · simp only [bind, Except.bind, Except.ok.injEq, exists_eq_left']
    rw [← Reading.finish_eq_ok]
    rcases r.finish with e | c'
    · simp [Except.mapError]
    · simp [Except.mapError]

/-- The error of a text carries the text. -/
theorem text_of_parse {t : String} {e : ParseError} (h : parse t = .error e) : e.text = t := by
  unfold parse at h
  rcases hr : (do (← read t.toList).finish : Except Stuck Category) with e' | c
  · rw [hr] at h
    cases h
    rfl
  · rw [hr] at h
    cases h

/-- A text writes at most one category. -/
theorem Derives.unique {s : List Char} {c d : Category} (hc : Derives s c) (hd : Derives s d) :
    c = d := by
  rw [← String.toList_ofList (l := s), ← parse_eq_ok_iff] at hc hd
  exact Except.ok.inj (hc.symm.trans hd)

/-- **Reading accepts exactly the grammar.** A text is read as a category if it writes this category
in the grammar, which gives it one meaning; any other text is refused, by an error that carries all
of it. -/
theorem parse_accepts (t : String) :
    (∀ c, parse t = .ok c ↔ Derives t.toList c) ∧
      ((∃! c, Derives t.toList c) ∨
        (¬ ∃ c, Derives t.toList c) ∧ ∃ e, parse t = .error e ∧ e.text = t) := by
  refine ⟨fun c => parse_eq_ok_iff, ?_⟩
  rcases h : parse t with e | c
  · refine Or.inr ⟨?_, e, rfl, text_of_parse h⟩
    rintro ⟨c, hc⟩
    rw [← parse_eq_ok_iff, h] at hc
    cases hc
  · have hc := parse_eq_ok_iff.mp h
    exact Or.inl ⟨c, hc, fun d hd => hd.unique hc⟩

end CategorialChart.Category
