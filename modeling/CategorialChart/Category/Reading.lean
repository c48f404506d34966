import CategorialChart.Category.Basic

/-!
# Reading categories

A category is read from the front of a list of characters, by recursive descent:

    category := primary (slash primary)*        folded to the left into functors
    primary  := atom | '(' category ')'
    atom     := NAME ('[' FEATURE ']')?

`NAME` is a run of ASCII letters, as long as possible, or one of the marks `, . ; :`, and
`FEATURE` is a run of ASCII letters. A bracket that does not close after letters is no part of the
atom before it.

* `Category.Reading cs`: a category read off the front of `cs`, with the characters that follow
  it. That these are fewer is what both recursions below run on.
* `Category.primary`, `Category.Reading.extend`: the two rules. A failure is a `Category.Stuck`,
  the cause together with the characters that were left when it struck.
* `Category.parse`: reads a whole text. Its errors count the bytes that stand before the failure.
-/

namespace CategorialChart.Category

/-! ## Atoms -/

/-- The punctuation marks that are names on their own. -/
def isMark (c : Char) : Bool := c = ',' || c = '.' || c = ';' || c = ':'

/-- Splits off a name: the longest run of letters, or one mark. -/
def splitName : List Char → Option (List Char × List Char)
  | [] => none
  | c :: cs =>
    if c.isAlpha then some (c :: cs.takeWhile Char.isAlpha, cs.dropWhile Char.isAlpha)
    else if isMark c then some ([c], cs)
    else none

/-- Splits off a feature with its brackets, if there is a complete one. -/
def splitFeature : List Char → Option (List Char × List Char)
  | '[' :: cs =>
    match cs.takeWhile Char.isAlpha, cs.dropWhile Char.isAlpha with
    | f :: fs, ']' :: rest => some (f :: fs, rest)
    | _, _ => none
  | _ => none

theorem length_of_splitName {cs name rest : List Char} (h : splitName cs = some (name, rest)) :
    rest.length < cs.length := by
  cases cs with
  | nil => simp [splitName] at h
  | cons c cs =>
    have := (List.dropWhile_sublist (l := cs) Char.isAlpha).length_le
    simp only [splitName] at h
    split at h
    · simp only [Option.some.injEq, Prod.mk.injEq] at h
      simp only [← h.2, List.length_cons]
      omega
    · split at h
      · simp only [Option.some.injEq, Prod.mk.injEq] at h
        simp [← h.2]
      · simp at h

theorem length_of_splitFeature {cs feature rest : List Char}
    (h : splitFeature cs = some (feature, rest)) : rest.length < cs.length := by
  unfold splitFeature at h
  split at h
  · next cs =>
    have := (List.dropWhile_sublist (l := cs) Char.isAlpha).length_le
    split at h
    · next r _ hr =>
      simp only [Option.some.injEq, Prod.mk.injEq] at h
      simp only [hr, List.length_cons] at this
      simp only [← h.2, List.length_cons]
      omega
    · simp at h
  · simp at h

/-! ## The descent -/

/-- Why a reading stopped. -/
inductive Fault where
  /-- No category starts here. -/
  | expectedCategory
  /-- A parenthesis is open and does not close here. -/
  | missingParen
  /-- The category is complete and more text follows. -/
  | unexpected (rest : String)
deriving DecidableEq, Repr

/-- A failed reading: the cause, and the characters that were left when it struck. -/
structure Stuck where
  /-- The cause. -/
  fault : Fault
  /-- The characters left. -/
  rest : List Char
deriving DecidableEq, Repr

/-- A category read off the front of `cs`. -/
structure Reading (cs : List Char) where
  /-- What was read. -/
  category : Category
  /-- The characters that follow it. -/
  rest : List Char
  /-- At least one character was read. -/
  shorter : rest.length < cs.length

/-- Reads an atom, with its feature if a complete one follows the name. -/
def readAtom (cs : List Char) : Except Stuck (Reading cs) :=
  match h : splitName cs with
  | none => .error ⟨.expectedCategory, cs⟩
  | some (name, rest) =>
    have hrest := length_of_splitName h
    match hf : splitFeature rest with
    | none => .ok ⟨.atom (String.ofList name) none, rest, hrest⟩
    | some (feature, rest') =>
      .ok ⟨.atom (String.ofList name) (some (String.ofList feature)), rest',
        Nat.lt_trans (length_of_splitFeature hf) hrest⟩

/-- Splits off a slash. -/
def splitSlash : List Char → Option (Slash × List Char)
  | '/' :: rest => some (.forward, rest)
  | '\\' :: rest => some (.backward, rest)
  | _ => none

theorem length_of_splitSlash {cs rest : List Char} {slash : Slash}
    (h : splitSlash cs = some (slash, rest)) : rest.length < cs.length := by
  unfold splitSlash at h
  split at h <;> simp_all

/-- Closes the parenthesis that stands before a reading. -/
def Reading.close {cs : List Char} (r : Reading cs) : Except Stuck (Reading ('(' :: cs)) :=
  match h : r.rest with
  | ')' :: rest =>
    .ok ⟨r.category, rest, by have := r.shorter; simp only [h, List.length_cons] at this ⊢; omega⟩
  | rest => .error ⟨.missingParen, rest⟩

mutual

/-- Reads an atom, or a whole category in parentheses. -/
def primary : (cs : List Char) → Except Stuck (Reading cs)
  | '(' :: inner => do
    let first ← primary inner
    (← first.extend).close
  | cs => readAtom cs
termination_by cs => cs.length
decreasing_by
  · simp
  · exact Nat.lt_succ_of_lt first.shorter

/-- Goes on with the slashes and primaries that follow a reading, associating to the left. -/
def Reading.extend {cs : List Char} (r : Reading cs) : Except Stuck (Reading cs) :=
  match h : splitSlash r.rest with
  | none => .ok r
  | some (slash, rest) => do
    let next ← primary rest
    Reading.extend ⟨.functor r.category slash next.category, next.rest, by
      have := r.shorter; have := next.shorter; have := length_of_splitSlash h; omega⟩
termination_by r.rest.length
decreasing_by
  · exact length_of_splitSlash h
  · exact Nat.lt_trans next.shorter (length_of_splitSlash h)

end

/-! ## Whole texts -/

/-- The number of bytes that the characters take in UTF-8. -/
def byteLength : List Char → Nat
  | [] => 0
  | c :: cs => c.utf8Size + byteLength cs

/-- A text that is not the notation of a category. -/
structure ParseError where
  /-- The text. -/
  text : String
  /-- What is wrong with it. -/
  fault : Fault
  /-- The number of bytes that stand before the failure. -/
  offset : Nat
deriving DecidableEq, Repr

/-- What is wrong, and where. -/
def ParseError.reason (e : ParseError) : String :=
  match e.fault with
  | .expectedCategory => s!"expected a category at offset {e.offset}"
  | .missingParen => s!"missing ')' at offset {e.offset}"
  | .unexpected rest => s!"unexpected '{rest}' at offset {e.offset}"

/-- The text of the error. -/
def ParseError.message (e : ParseError) : String :=
  s!"invalid category '{e.text}': {e.reason}"

/-- Locates a failure in the text that was read. -/
def Stuck.inText (e : Stuck) (text : String) : ParseError :=
  ⟨text, e.fault, byteLength text.toList - byteLength e.rest⟩

/-- Reads a category off the front, as far as its slashes go. -/
def read (cs : List Char) : Except Stuck (Reading cs) := do
  (← primary cs).extend

/-- The end of the text: nothing may follow the category. -/
def Reading.finish {cs : List Char} (r : Reading cs) : Except Stuck Category :=
  if r.rest.isEmpty then .ok r.category
  else .error ⟨.unexpected (String.ofList r.rest), r.rest⟩

/-- **The category that a text writes**, or what is wrong with the text. -/
def parse (text : String) : Except ParseError Category :=
  (do (← read text.toList).finish : Except Stuck Category).mapError (·.inText text)

end CategorialChart.Category
