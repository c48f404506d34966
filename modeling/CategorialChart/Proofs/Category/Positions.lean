import CategorialChart.Proofs.Category.Rejection

/-! # Reading by position

`Category.parse` goes through a list of characters. The reader of this module has a position in the
text, as a number of bytes, and cuts the text there each time it looks at what follows. A cut inside
a character, or beyond the end, stops it at once (`Stop.misplaced`). It goes on by adding up the
bytes of what it has seen, so nothing in the definitions keeps it between characters, and nothing in
them says that its recursion ends: a run without end has no outcome.

* `Input.primaryAt`, `categoryAt`, `turnAt`, `slashesAt`, `parseAt`: the reader. A turn is one round
  of the loop over the slashes.
* `Agrees`: the reader by position does as the reader of characters does, and stops in front of the
  same characters. `primaryAt_agrees`, `categoryAt_agrees` and `slashesAt_agrees` show this from any
  position between characters.
* `Safe`: a run ends, misplaces no cut, and does not go backwards.
* `parse_safe`: all runs are safe, and the reader by position gives what `parse` gives. -/

namespace CategorialChart

theorem Slash.utf8Size_char (d : Slash) : d.char.utf8Size = 1 := by cases d <;> rfl

namespace Category

/-- Why a reading by position stops. -/
inductive Stop where
  /-- The text is not the notation of a category. -/
  | fault (fault : Fault)
  /-- The text was to be cut inside a character or beyond its end. -/
  | misplaced
deriving DecidableEq, Repr

/-- A reader that has a position in a text, in bytes, also after a failure. It need not come to an
end. -/
abbrev Cursor := ExceptT Stop (StateT Nat Option)

variable {α β : Type}

/-- What a reader gives from a position on, and its position then. A run without end gives
nothing. -/
def Cursor.runFrom (m : Cursor α) (pos : Nat) : Option (Except Stop α × Nat) := m.run.run pos

/-! ### The reader -/

/-- Goes on by a number of bytes. -/
def advance (bytes : Nat) : Cursor Unit := modify (· + bytes)

/-- Reads an atom off the characters that stand at the position. -/
def atomAt (cs : List Char) : Cursor Category :=
  match splitName cs with
  | none => throw (.fault .expectedCategory)
  | some (name, rest) =>
    match splitFeature rest with
    | none => do
      advance (byteLength name)
      return .atom (String.ofList name) none
    | some (feature, _) => do
      advance (byteLength (name ++ '[' :: (feature ++ [']'])))
      return .atom (String.ofList name) (some (String.ofList feature))

/-- A text that is read by position. -/
abbrev Input := String

namespace Input

/-- The characters from the position on. -/
def slice (text : Input) : Cursor (List Char) := do
  let pos ← get
  if h : (⟨pos⟩ : String.Pos.Raw).IsValid text then
    return (text.sliceFrom ⟨⟨pos⟩, h⟩).copy.toList
  else throw .misplaced

/-- Closes the parenthesis in front of a category. -/
def closeAt (text : Input) (inner : Category) : Cursor Category := do
  if (← text.slice).head? = some ')' then
    advance 1
    return inner
  else throw (.fault .missingParen)

mutual

/-- Reads an atom, or a whole category in parentheses. -/
def primaryAt (text : Input) : Cursor Category := do
  let rest ← text.slice
  if rest.head? = some '(' then
    advance 1
    let inner ← text |>.categoryAt
    text.closeAt inner
  else atomAt rest
partial_fixpoint

/-- Reads a category, as far as its slashes go. -/
def categoryAt (text : Input) : Cursor Category := do
  let first ← text |>.primaryAt
  text |>.slashesAt first
partial_fixpoint

/-- One turn of the loop over the slashes: a slash and the primary after it, if there is a slash. -/
def turnAt (text : Input) (category : Category) : Cursor (Option Category) := do
  match splitSlash (← text.slice) with
  | none => return none
  | some (slash, _) =>
    advance 1
    let argument ← text |>.primaryAt
    return some (.functor category slash argument)
partial_fixpoint

/-- Takes turns as long as there are slashes. -/
def slashesAt (text : Input) (category : Category) : Cursor Category := do
  match ← text |>.turnAt category with
  | none => return category
  | some longer => text |>.slashesAt longer
partial_fixpoint

end

/-- Reads a whole text. -/
def parseAt (text : Input) : Cursor Category := do
  let category ← text.categoryAt
  if (← get) = text.utf8ByteSize then return category
  else throw (.fault (.unexpected (String.ofList (← text.slice))))

end Input

open Input

/-! ### Positions -/

/-- The number of bytes in front of the last characters of a text. -/
def bytesBefore (text : String) (rest : List Char) : Nat :=
  byteLength text.toList - byteLength rest

variable {text : String} {cs s rest : List Char}

theorem byteLength_toList (text : String) : byteLength text.toList = text.utf8ByteSize := by
  rw [← utf8ByteSize_ofList, String.ofList_toList]

theorem length_le_byteLength (cs : List Char) : cs.length ≤ byteLength cs := by
  induction cs with
  | nil => exact Nat.le_refl 0
  | cons c cs ih =>
    have := c.utf8Size_pos
    rw [List.length_cons, byteLength]
    omega

/-- What is read takes the position further by its bytes. -/
theorem bytesBefore_append (h : s ++ rest <:+ text.toList) :
    bytesBefore text rest = bytesBefore text (s ++ rest) + byteLength s := by
  obtain ⟨t, ht⟩ := h
  rw [bytesBefore, bytesBefore, ← ht, byteLength_append, byteLength_append]
  omega

theorem exists_splits (h : cs <:+ text.toList) :
    ∃ t : String, text = t ++ String.ofList cs ∧
      (⟨bytesBefore text cs⟩ : String.Pos.Raw) = t.rawEndPos := by
  obtain ⟨t, ht⟩ := h
  refine ⟨String.ofList t, ?_, ?_⟩
  · rw [← String.ofList_append, ht, String.ofList_toList]
  · rw [bytesBefore, ← ht, byteLength_append, Nat.add_sub_cancel, ← utf8ByteSize_ofList]
    rfl

/-- In front of the last characters of a text is no character cut. -/
theorem isValid_bytesBefore (h : cs <:+ text.toList) :
    (⟨bytesBefore text cs⟩ : String.Pos.Raw).IsValid text := by
  obtain ⟨t, ht, hpos⟩ := exists_splits h
  exact String.Pos.Raw.isValid_iff_exists_append.mpr ⟨t, _, ht, hpos⟩

theorem exists_bytesBefore {pos : Nat} (h : (⟨pos⟩ : String.Pos.Raw).IsValid text) :
    ∃ cs, cs <:+ text.toList ∧ pos = bytesBefore text cs := by
  obtain ⟨s, t, rfl, hpos⟩ := String.Pos.Raw.isValid_iff_exists_append.mp h
  refine ⟨t.toList, ⟨s.toList, String.toList_append.symm⟩, ?_⟩
  rw [bytesBefore, String.toList_append, byteLength_append, Nat.add_sub_cancel, byteLength_toList]
  exact congrArg String.Pos.Raw.byteIdx hpos

/-! ### Runs -/

namespace Cursor

variable {m : Cursor α} {f : α → Cursor β} {pos pos' : Nat}

theorem bind_ok {a : α} (h : m.runFrom pos = some (.ok a, pos')) :
    (m >>= f).runFrom pos = (f a).runFrom pos' := by
  unfold runFrom at h ⊢
  rw [ExceptT.run_bind, StateT.run_bind, h]
  rfl

theorem bind_error {e : Stop} (h : m.runFrom pos = some (.error e, pos')) :
    (m >>= f).runFrom pos = some (.error e, pos') := by
  unfold runFrom at h ⊢
  rw [ExceptT.run_bind, StateT.run_bind, h]
  rfl

theorem run_get (pos : Nat) : (get : Cursor Nat).runFrom pos = some (.ok pos, pos) := rfl

theorem run_slice (h : cs <:+ text.toList) :
    (slice text).runFrom (bytesBefore text cs) = some (.ok cs, bytesBefore text cs) := by
  obtain ⟨t, ht, hpos⟩ := exists_splits h
  have hvalid := isValid_bytesBefore h
  have hsplits : (⟨⟨bytesBefore text cs⟩, hvalid⟩ : text.Pos).Splits t (String.ofList cs) :=
    ⟨ht, hpos⟩
  unfold slice
  rw [bind_ok (run_get _), dif_pos hvalid, hsplits.copy_sliceFrom_eq, String.toList_ofList]
  rfl

theorem run_advance (h : cs <:+ text.toList) (hcs : cs = s ++ rest) :
    (advance (byteLength s)).runFrom (bytesBefore text cs) =
      some (.ok (), bytesBefore text rest) := by
  subst hcs
  rw [bytesBefore_append h]
  rfl

/-- One byte is enough for a sign of the notation. -/
theorem run_advance_one {c : Char} (hc : c.utf8Size = 1) (h : c :: rest <:+ text.toList) :
    (advance 1).runFrom (bytesBefore text (c :: rest)) = some (.ok (), bytesBefore text rest) := by
  have hsize : byteLength [c] = 1 := by rw [byteLength, hc, byteLength]
  have hrun := run_advance (s := [c]) h rfl
  rwa [hsize] at hrun

end Cursor

/-! ### Agreement -/

/-- The characters that are left after a reading. -/
def restOf : Except Stuck (Reading cs) → List Char
  | .ok r => r.rest
  | .error e => e.rest

/-- What a reading gives, as a reader by position gives it. -/
def resultAt : Except Stuck (Reading cs) → Except Stop Category
  | .ok r => .ok r.category
  | .error e => .error (.fault e.fault)

/-- **The reader by position does as the reader of characters**, and stops in front of the same
characters. -/
structure Agrees (text : String) (m : Cursor Category) (cs : List Char) {cs' : List Char}
    (x : Except Stuck (Reading cs')) : Prop where
  run : m.runFrom (bytesBefore text cs) = some (resultAt x, bytesBefore text (restOf x))
  suffix : restOf x <:+ cs

open Cursor

namespace Agrees

variable {m m' : Cursor Category} {f : Category → Cursor Category} {cs₁ cs₂ cs₃ : List Char}

/-- A step takes the reader on to other characters. -/
theorem step {x : Except Stuck (Reading cs₃)}
    (hrun : m.runFrom (bytesBefore text cs₁) = m'.runFrom (bytesBefore text cs₂))
    (hsuffix : cs₂ <:+ cs₁) (h : Agrees text m' cs₂ x) : Agrees text m cs₁ x :=
  ⟨hrun.trans h.run, h.suffix.trans hsuffix⟩

theorem bind_ok {r : Reading cs₂} {x : Except Stuck (Reading cs₃)}
    (h : Agrees text m cs₁ (.ok r)) (hf : Agrees text (f r.category) r.rest x) :
    Agrees text (m >>= f) cs₁ x :=
  step (Cursor.bind_ok h.run) h.suffix hf

theorem bind_error {e : Stuck} (h : Agrees text m cs₁ (.error e : Except Stuck (Reading cs₂))) :
    Agrees text (m >>= f) cs₁ (.error e : Except Stuck (Reading cs₃)) :=
  ⟨Cursor.bind_error h.run, h.suffix⟩

end Agrees

theorem atomAt_agrees (hcs : cs <:+ text.toList) : Agrees text (atomAt cs) cs (readAtom cs) := by
  rcases hname : splitName cs with _ | ⟨name, rest⟩
  · rw [readAtom_eq_error hname, atomAt, hname]
    exact ⟨rfl, List.suffix_rfl⟩
  obtain ⟨-, hsplit, -⟩ := isName_of_splitName hname
  rcases hfeature : splitFeature rest with _ | ⟨feature, rest'⟩
  · obtain ⟨_, hread⟩ := readAtom_plain hname hfeature
    rw [hread, atomAt, hname]
    simp only [hfeature]
    exact ⟨bind_ok (run_advance hcs hsplit), ⟨name, hsplit.symm⟩⟩
  · obtain ⟨_, hread⟩ := readAtom_featured hname hfeature
    obtain ⟨-, hrest⟩ := isFeature_of_splitFeature hfeature
    have hall : cs = name ++ '[' :: (feature ++ [']']) ++ rest' := by
      rw [hsplit, hrest]
      simp
    rw [hread, atomAt, hname]
    simp only [hfeature]
    exact ⟨bind_ok (run_advance hcs hall), ⟨_, hall.symm⟩⟩

/-- A turn without a slash. -/
theorem turnAt_none (hcs : cs <:+ text.toList) (h : splitSlash cs = none) (category : Category) :
    (turnAt text category).runFrom (bytesBefore text cs) =
      some (.ok none, bytesBefore text cs) := by
  rw [turnAt, bind_ok (run_slice hcs), h]
  rfl

/-- A turn with a slash gives what the primary after the slash gives. -/
theorem turnAt_some (hcs : cs <:+ text.toList) {slash : Slash}
    (h : splitSlash cs = some (slash, rest))
    (hprimary : Agrees text (primaryAt text) rest (primary rest)) (category : Category) :
    (turnAt text category).runFrom (bytesBefore text cs) =
      some ((resultAt (primary rest)).map fun argument => some (.functor category slash argument),
        bytesBefore text (restOf (primary rest))) := by
  obtain rfl := splitSlash_eq_some.mp h
  have hadvance : (advance 1).runFrom (bytesBefore text (slash.char :: rest)) =
      some (.ok (), bytesBefore text rest) := run_advance_one slash.utf8Size_char hcs
  have hrun := hprimary.run
  rw [turnAt, bind_ok (run_slice hcs), h]
  dsimp only
  rw [bind_ok hadvance]
  rcases hp : primary rest with e | r
  · rw [hp] at hrun
    exact bind_error hrun
  · rw [hp] at hrun
    exact bind_ok hrun

theorem closeAt_agrees {r : Reading cs} (hr : r.rest <:+ text.toList) :
    Agrees text (closeAt text r.category) r.rest r.close := by
  have hslice := run_slice hr
  by_cases hc : r.rest.head? = some ')'
  · obtain ⟨rest, hrest⟩ := List.head?_eq_some_iff.mp hc
    obtain ⟨_, hclose⟩ := Reading.close_complete hrest
    rw [hclose]
    refine ⟨?_, ⟨[')'], hrest.symm⟩⟩
    rw [closeAt, bind_ok hslice, if_pos hc]
    rw [hrest] at hr ⊢
    exact bind_ok (run_advance_one rfl hr)
  · rw [Reading.close_eq_error hc]
    refine ⟨?_, List.suffix_rfl⟩
    rw [closeAt, bind_ok hslice, if_neg hc]
    rfl

/-- A category in parentheses is read alike if the category is. -/
theorem primaryAt_paren {inner : List Char} (hcs : '(' :: inner <:+ text.toList)
    (hcategory : Agrees text (categoryAt text) inner (read inner)) :
    Agrees text (primaryAt text) ('(' :: inner) (primary ('(' :: inner)) := by
  have hinner : inner <:+ '(' :: inner := List.suffix_cons _ _
  have hopen : (advance 1).runFrom (bytesBefore text ('(' :: inner)) =
      some (.ok (), bytesBefore text inner) := run_advance_one rfl hcs
  have hstart : (primaryAt text).runFrom (bytesBefore text ('(' :: inner)) =
      (categoryAt text >>= closeAt text).runFrom (bytesBefore text inner) := by
    rw [primaryAt, bind_ok (run_slice hcs), if_pos List.head?_cons, bind_ok hopen]
  refine .step hstart hinner ?_
  rcases hread : read inner with e | r
  · rw [hread] at hcategory
    rw [primary_of_read_error hread]
    exact hcategory.bind_error
  · rw [hread] at hcategory
    rw [primary_of_read hread]
    exact hcategory.bind_ok (closeAt_agrees ((hcategory.suffix.trans hinner).trans hcs))

theorem primaryAt_atom (hcs : cs <:+ text.toList) (hp : ∀ inner, cs ≠ '(' :: inner) :
    Agrees text (primaryAt text) cs (primary cs) := by
  have hhead : cs.head? ≠ some '(' := fun h => (List.head?_eq_some_iff.mp h).elim hp
  have hstart : (primaryAt text).runFrom (bytesBefore text cs) =
      (atomAt cs).runFrom (bytesBefore text cs) := by
    rw [primaryAt, bind_ok (run_slice hcs), if_neg hhead]
  rw [primary_of_readAtom hp]
  exact .step hstart List.suffix_rfl (atomAt_agrees hcs)

-- The induction is on the number of characters that are left. A category begins with its first
-- primary, at the same place, so the level of the call decides where this number is the same.
mutual

/-- **A primary is read alike.** -/
theorem primaryAt_agrees : ∀ cs : List Char, cs <:+ text.toList →
    Agrees text (primaryAt text) cs (primary cs)
  | cs, hcs => by
    by_cases hp : ∃ inner, cs = '(' :: inner
    · obtain ⟨inner, rfl⟩ := hp
      exact primaryAt_paren hcs (categoryAt_agrees inner ((List.suffix_cons _ _).trans hcs))
    · exact primaryAt_atom hcs fun inner he => hp ⟨inner, he⟩
termination_by cs => (cs.length, 0)

/-- **A category is read alike.** -/
theorem categoryAt_agrees : ∀ cs : List Char, cs <:+ text.toList →
    Agrees text (categoryAt text) cs (read cs)
  | cs, hcs => by
    have hprimary := primaryAt_agrees cs hcs
    rw [categoryAt]
    rcases hfirst : primary cs with e | first
    · have hread : read cs = .error e := by
        unfold read
        rw [hfirst]
        rfl
      rw [hfirst] at hprimary
      rw [hread]
      exact hprimary.bind_error
    · rw [hfirst] at hprimary
      rw [read_of_primary hfirst]
      exact hprimary.bind_ok (slashesAt_agrees first (hprimary.suffix.trans hcs))
termination_by cs => (cs.length, 1)
decreasing_by
  · exact Prod.Lex.right _ Nat.zero_lt_one
  · exact Prod.Lex.left _ _ first.shorter

/-- **What follows a category is read alike.** -/
theorem slashesAt_agrees : ∀ {cs : List Char} (r : Reading cs), r.rest <:+ text.toList →
    Agrees text (slashesAt text r.category) r.rest r.extend
  | cs, r, hr => by
    rw [slashesAt]
    rcases hs : splitSlash r.rest with _ | ⟨slash, rest⟩
    · rw [extend_of_splitSlash hs]
      exact ⟨bind_ok (turnAt_none hr hs _), List.suffix_rfl⟩
    · have hlt := length_of_splitSlash hs
      have hrest : rest <:+ r.rest := ⟨[slash.char], (splitSlash_eq_some.mp hs).symm⟩
      have hprimary := primaryAt_agrees rest (hrest.trans hr)
      have hturn := turnAt_some hr hs hprimary r.category
      have hsuffix := hprimary.suffix.trans hrest
      rcases hnext : primary rest with e | next
      · rw [hnext] at hturn hsuffix
        rw [extend_of_primary_error hs hnext]
        exact ⟨bind_error hturn, hsuffix⟩
      · rw [hnext] at hturn hsuffix
        obtain ⟨hlt', hextend⟩ := extend_of_primary hs hnext
        obtain ⟨hrun', hsuffix'⟩ := slashesAt_agrees
          (⟨.functor r.category slash next.category, next.rest, hlt'⟩ : Reading cs)
          (hsuffix.trans hr)
        rw [hextend]
        exact ⟨(bind_ok hturn).trans hrun', hsuffix'.trans hsuffix⟩
termination_by _ r => (r.rest.length, 2)
decreasing_by
  · exact Prod.Lex.left _ _ hlt
  · exact Prod.Lex.left _ _ (Nat.lt_trans next.shorter hlt)

end

/-! ### Safe runs -/

/-- **A safe run** from `pos` comes to an end, without a cut that is misplaced. It stops between two
characters of the text and not before `pos`, and if it gives `a`, then `least a` bytes after `pos`
or later. -/
def Safe (text : String) (pos : Nat) (least : α → Nat) (m : Cursor α) : Prop :=
  ∃ outcome stop, m.runFrom pos = some (outcome, stop) ∧ outcome ≠ .error .misplaced ∧
    pos ≤ stop ∧ stop ≤ text.utf8ByteSize ∧ (⟨stop⟩ : String.Pos.Raw).IsValid text ∧
    ∀ a, outcome = .ok a → pos + least a ≤ stop

/-- Each character that is read takes a byte or more. -/
theorem bytesBefore_le (hcs : cs <:+ text.toList) (hrest : rest <:+ cs) {n : Nat}
    (hn : n + rest.length ≤ cs.length) : bytesBefore text cs + n ≤ bytesBefore text rest := by
  obtain ⟨s, rfl⟩ := hrest
  have := length_le_byteLength s
  rw [List.length_append] at hn
  rw [bytesBefore_append hcs]
  omega

/-- A run is safe if it stops in front of some of the characters that were left. -/
theorem safe_of_suffix {m : Cursor α} {least : α → Nat} {outcome : Except Stop α}
    (hcs : cs <:+ text.toList) (hrest : rest <:+ cs)
    (hrun : m.runFrom (bytesBefore text cs) = some (outcome, bytesBefore text rest))
    (hplaced : outcome ≠ .error .misplaced)
    (hleast : ∀ a, outcome = .ok a → least a + rest.length ≤ cs.length) :
    Safe text (bytesBefore text cs) least m := by
  have hvalid := isValid_bytesBefore (hrest.trans hcs)
  have hforward : 0 + rest.length ≤ cs.length := by simpa using hrest.length_le
  exact ⟨outcome, _, hrun, hplaced, bytesBefore_le hcs hrest hforward, hvalid.le_utf8ByteSize,
    hvalid, fun a ha => bytesBefore_le hcs hrest (hleast a ha)⟩

theorem resultAt_ne_misplaced (x : Except Stuck (Reading cs)) : resultAt x ≠ .error .misplaced := by
  rcases x with e | r
  · exact fun h => by cases h
  · exact fun h => by cases h

theorem Agrees.safe {m : Cursor Category} {x : Except Stuck (Reading cs)} (h : Agrees text m cs x)
    (hcs : cs <:+ text.toList) : Safe text (bytesBefore text cs) (fun _ => 1) m := by
  refine safe_of_suffix hcs h.suffix h.run (resultAt_ne_misplaced x) fun a ha => ?_
  rcases x with e | r
  · cases ha
  · have := r.shorter
    rw [restOf]
    omega

theorem safe_slashesAt (hcs : cs <:+ text.toList) (category : Category) :
    Safe text (bytesBefore text cs) (fun _ => 0) (slashesAt text category) := by
  -- the loop does not ask how the category in front of it was read
  have hreading : cs.length < (' ' :: cs).length := Nat.lt_succ_self _
  have h := slashesAt_agrees (⟨category, cs, hreading⟩ : Reading (' ' :: cs)) hcs
  exact safe_of_suffix hcs h.suffix h.run (resultAt_ne_misplaced _) fun a _ => by
    simpa using h.suffix.length_le

theorem safe_turnAt (hcs : cs <:+ text.toList) (category : Category) :
    Safe text (bytesBefore text cs) (fun longer => if longer.isSome then 2 else 0)
      (turnAt text category) := by
  rcases hs : splitSlash cs with _ | ⟨slash, rest⟩
  · refine safe_of_suffix hcs List.suffix_rfl (turnAt_none hcs hs category) (fun h => by cases h)
      fun a ha => ?_
    cases ha
    simp
  · have hsplit := splitSlash_eq_some.mp hs
    have hrest : rest <:+ cs := ⟨[slash.char], hsplit.symm⟩
    have hprimary := primaryAt_agrees rest (hrest.trans hcs)
    have hturn := turnAt_some hcs hs hprimary category
    have hsuffix := hprimary.suffix.trans hrest
    rcases hnext : primary rest with e | next
    · rw [hnext] at hturn hsuffix
      exact safe_of_suffix hcs hsuffix hturn (fun h => by cases h) fun a ha => by cases ha
    · rw [hnext] at hturn hsuffix
      refine safe_of_suffix hcs hsuffix hturn (fun h => by cases h) fun a ha => ?_
      cases ha
      have := next.shorter
      rw [hsplit, List.length_cons, restOf]
      simp only [Option.isSome_some, if_true]
      omega

/-! ### Whole texts -/

theorem bytesBefore_toList (text : String) : bytesBefore text text.toList = 0 := Nat.sub_self _

theorem bytesBefore_eq_size (h : rest <:+ text.toList) :
    bytesBefore text rest = text.utf8ByteSize ↔ rest = [] := by
  constructor
  · intro heq
    obtain ⟨s, hs⟩ := h
    have := length_le_byteLength rest
    rw [bytesBefore, ← byteLength_toList, ← hs, byteLength_append] at heq
    exact List.length_eq_zero_iff.mp (by omega)
  · rintro rfl
    rw [bytesBefore, byteLength_toList]
    rfl

/-- **Reading by position** gives what `parse` gives, and stops at the end of the text or at the
offset of the error. -/
theorem run_parseAt (text : String) :
    (parseAt text).runFrom 0 = some (match parse text with
      | .ok c => (.ok c, text.utf8ByteSize)
      | .error e => (.error (.fault e.fault), e.offset)) := by
  have hcategory := categoryAt_agrees text.toList List.suffix_rfl
  have hrun := hcategory.run
  rw [bytesBefore_toList] at hrun
  rw [parseAt]
  rcases hread : read text.toList with e | r
  · have hparse : parse text = .error (e.inText text) := by
      rw [parse, hread]
      rfl
    rw [hread] at hrun
    rw [hparse, bind_error hrun]
    rfl
  · have hparse : parse text = r.finish.mapError (·.inText text) := by
      rw [parse, hread]
      rfl
    rw [hread] at hrun hcategory
    have hleft : r.rest <:+ text.toList := hcategory.suffix
    have hend := bytesBefore_eq_size hleft
    rw [hparse, bind_ok hrun, restOf, bind_ok (run_get _)]
    by_cases hrest : r.rest = []
    · rw [if_pos (hend.mpr hrest), Reading.finish_eq_ok.mpr ⟨hrest, rfl⟩, hend.mpr hrest]
      rfl
    · rw [if_neg (mt hend.mp hrest), Reading.finish_eq_error hrest, bind_ok (run_slice hleft)]
      rfl

/-- **Reading is safe and comes to an end, on every text.** From every position between two
characters each call of the reader by position ends. It does not cut the text inside a character or
beyond its end, and it stops between two characters and not before the position where it began. A
primary that is read takes a byte or more, and so does a category; a turn over a slash takes two or
more. From the beginning of the text on, the reader by position gives the category that `parse`
gives, at the end of the text, or the fault that `parse` gives, at the offset of the error. -/
theorem parse_safe (text : String) :
    (∀ pos : Nat, (⟨pos⟩ : String.Pos.Raw).IsValid text →
      Safe text pos (fun _ => 1) (primaryAt text) ∧ Safe text pos (fun _ => 1) (categoryAt text) ∧
      ∀ category : Category,
        Safe text pos (fun longer => if longer.isSome then 2 else 0) (turnAt text category) ∧
        Safe text pos (fun _ => 0) (slashesAt text category)) ∧
    (parseAt text).runFrom 0 = some (match parse text with
      | .ok c => (.ok c, text.utf8ByteSize)
      | .error e => (.error (.fault e.fault), e.offset)) := by
  refine ⟨fun pos hpos => ?_, run_parseAt text⟩
  obtain ⟨cs, hcs, rfl⟩ := exists_bytesBefore hpos
  refine ⟨(primaryAt_agrees cs hcs).safe hcs, (categoryAt_agrees cs hcs).safe hcs, fun category =>
    ⟨safe_turnAt hcs category, safe_slashesAt hcs category⟩⟩

/-- A turn that begins behind a character of two bytes. The whole text is refused at its first
byte. -/
theorem parse_safe_accent :
    ¬ (⟨1⟩ : String.Pos.Raw).IsValid "é/N" ∧ (⟨2⟩ : String.Pos.Raw).IsValid "é/N" ∧
      Safe "é/N" 2 (fun longer => if longer.isSome then 2 else 0)
        (turnAt "é/N" (.atom "S" none)) ∧
      (parseAt "é/N").runFrom 0 = some (.error (.fault .expectedCategory), 0) := by
  have hstuck : read ['é', '/', 'N'] = .error ⟨.expectedCategory, ['é', '/', 'N']⟩ :=
    Lead.read_error (Or.inl rfl) (primary_eq_error (by simp) rfl)
  have hlist : "é/N".toList = ['é', '/', 'N'] := by simp
  have hparse : parse "é/N" = .error ⟨"é/N", .expectedCategory, 0⟩ := by
    rw [parse, hlist, hstuck]
    rfl
  have hvalid : (⟨2⟩ : String.Pos.Raw).IsValid "é/N" := by decide
  obtain ⟨hsafe, hrun⟩ := parse_safe "é/N"
  rw [hparse] at hrun
  exact ⟨by decide, hvalid, ((hsafe 2 hvalid).2.2 _).1, hrun⟩

end Category

end CategorialChart
