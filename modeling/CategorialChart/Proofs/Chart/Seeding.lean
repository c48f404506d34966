import CategorialChart.Chart.Basic
import Mathlib.Logic.Basic

/-! # Seeding as a row of offers

`Chart.seed` goes through the rows of a tagger's output word by word. `Chart.addMade` makes an item
for each candidate of one list and adds it, until an offer fails. Seeding a chart of `n` words is
`addMade` on the candidates of the first `n` rows, in order (`seed_eq`), and what it answers is read
off the results of these offers and the number of rows. -/

namespace CategorialChart.Chart

variable {κ σ : Type}

/-- The candidates of several rows, each with its word. The first row is that of `word`. -/
def candidates (word : Nat) : List (List (ScoredCategory σ)) → List (Nat × ScoredCategory σ)
  | [] => []
  | row :: rows => row.map (word, ·) ++ candidates (word + 1) rows

/-- The number of items retained, or the first failure. -/
def retainedIn : List (Except ChartError Bool) → Except ChartError Nat
  | [] => .ok 0
  | .ok retained :: results => (retainedIn results).map (retained.toNat + ·)
  | .error e :: _ => .error e

/-- A failure if there are more rows than words. -/
def within (length rows : Nat) : Except ChartError Nat → Except ChartError Nat
  | .ok kept => if rows ≤ length then .ok kept
    else .error (.spanOutOfRange length (length + 1) length)
  | .error e => .error e

variable [DecidableEq κ] [Ord κ] [LT σ] [DecidableLT σ] [Mul σ]

theorem length_offer (c : Chart κ σ) (h : Hasher) (span : Span) (key : κ) (item : Item κ σ) :
    (c.offer h span key item).2.1.length = c.length := by
  unfold Chart.offer
  split <;> rfl

variable {m : Type → Type} [Monad m]

/-- Makes items and adds them in order, until an offer fails: the results, and the chart and the
hasher after the last. -/
def addMade (make : Nat → ScoredCategory σ → m (Item κ σ)) :
    List (Nat × ScoredCategory σ) → Chart κ σ → Hasher →
      m (List (Except ChartError Bool) × Chart κ σ × Hasher)
  | [], c, hasher => return ([], c, hasher)
  | (word, candidate) :: rest, c, hasher => do
    let item ← make word candidate
    match c.add hasher (.word word) item with
    | (.error e, c, hasher) => return ([.error e], c, hasher)
    | (.ok retained, c, hasher) => do
      let (results, c, hasher) ← addMade make rest c hasher
      return (.ok retained :: results, c, hasher)

/-! ### One candidate -/

section Step
variable {S : Type} {make : Nat → ScoredCategory σ → StateM S (Item κ σ)} {word : Nat}
  {candidate : ScoredCategory σ} (xs : List (Nat × ScoredCategory σ)) {c c' : Chart κ σ}
  {h h' : Hasher} {s s' : S} {item : Item κ σ}

/-- An offer that fails is the last. -/
theorem addMade_cons_error {e : ChartError} (hm : make word candidate s = (item, s'))
    (ho : c.offer h (.word word) item.key item = (.error e, c', h')) :
    addMade make ((word, candidate) :: xs) c h s = (([.error e], c', h'), s') := by
  rw [addMade]
  simp only [StateT.bind, bind, hm, add, ho]
  rfl

/-- An offer that is answered is followed by those of the other candidates. -/
theorem addMade_cons_ok {b : Bool} (hm : make word candidate s = (item, s'))
    (ho : c.offer h (.word word) item.key item = (.ok b, c', h')) :
    addMade make ((word, candidate) :: xs) c h s =
      ((.ok b :: (addMade make xs c' h' s').1.1, (addMade make xs c' h' s').1.2),
        (addMade make xs c' h' s').2) := by
  rw [addMade]
  simp only [StateT.bind, bind, hm, add, ho]
  rfl

end Step

/-! ### Rows -/

variable [LawfulMonad m] {make : Nat → ScoredCategory σ → m (Item κ σ)}

/-- What follows the offers may rely on the length of the chart. -/
theorem addMade_bind_congr {β : Type} : ∀ (xs : List (Nat × ScoredCategory σ)) {c : Chart κ σ}
    {h : Hasher} {k k' : List (Except ChartError Bool) × Chart κ σ × Hasher → m β},
    (∀ results c' h', c'.length = c.length → k (results, c', h') = k' (results, c', h')) →
      addMade make xs c h >>= k = addMade make xs c h >>= k'
  | [], c, h, k, k', hk => by
    simp only [addMade, pure_bind]
    exact hk [] c h rfl
  | (word, candidate) :: xs, c, h, k, k', hk => by
    simp only [addMade, bind_assoc]
    refine bind_congr fun item => ?_
    have hlength : (c.add h (.word word) item).2.1.length = c.length :=
      length_offer c h (.word word) item.key item
    rcases ha : c.add h (.word word) item with ⟨e | b, c', h'⟩ <;> rw [ha] at hlength
    · simp only [pure_bind]
      exact hk _ c' h' hlength
    · simp only [bind_assoc, pure_bind]
      exact addMade_bind_congr xs fun results c'' h'' hl => hk _ c'' h'' (hl.trans hlength)

/-- The row of one word. -/
theorem seedWord_eq (word : Nat) : ∀ (row : List (ScoredCategory σ)) (kept : Nat) (c : Chart κ σ)
    (h : Hasher), seedWord make word row kept c h = do
      let (results, c, h) ← addMade make (row.map (word, ·)) c h
      return ((retainedIn results).map (kept + ·), c, h)
  | [], kept, c, h => by
    simp [seedWord, addMade, retainedIn, Except.map]
  | candidate :: row, kept, c, h => by
    simp only [seedWord, List.map_cons, addMade, bind_assoc]
    refine bind_congr fun item => ?_
    rcases c.add h (.word word) item with ⟨e | b, c', h'⟩
    · simp [retainedIn, Except.map]
    · simp only [seedWord_eq word row, bind_assoc, pure_bind, retainedIn]
      refine bind_congr fun r => ?_
      have hkept : (retainedIn r.1).map ((if b = true then kept + 1 else kept) + ·) =
          ((retainedIn r.1).map (b.toNat + ·)).map (kept + ·) := by
        rcases retainedIn r.1 with e | n
        · rfl
        · cases b <;> simp [Except.map]
          omega
      rw [hkept]

theorem addMade_append : ∀ (xs ys : List (Nat × ScoredCategory σ)) (c : Chart κ σ) (h : Hasher),
    addMade make (xs ++ ys) c h = do
      let (results, c, h) ← addMade make xs c h
      match retainedIn results with
      | .error _ => return (results, c, h)
      | .ok _ =>
        let (more, c, h) ← addMade make ys c h
        return (results ++ more, c, h)
  | [], ys, c, h => by simp [addMade, retainedIn]
  | (word, candidate) :: xs, ys, c, h => by
    simp only [List.cons_append, addMade, bind_assoc]
    refine bind_congr fun item => ?_
    rcases c.add h (.word word) item with ⟨e | b, c', h'⟩
    · simp [retainedIn]
    · simp only [addMade_append xs ys, bind_assoc, pure_bind, retainedIn]
      refine bind_congr fun r => ?_
      rcases retainedIn r.1 with e | n <;> simp [Except.map]

theorem retainedIn_append {n : Nat} : ∀ {rs : List (Except ChartError Bool)}
    (rs' : List (Except ChartError Bool)), retainedIn rs = .ok n →
      retainedIn (rs ++ rs') = (retainedIn rs').map (n + ·)
  | [], rs', h => by
    cases h
    rcases hr : retainedIn rs' with e | k <;> simp [hr, Except.map]
  | .error e :: rs, rs', h => by cases h
  | .ok b :: rs, rs', h => by
    rw [retainedIn] at h
    rcases hr : retainedIn rs with e | k <;> rw [hr] at h
    · cases h
    obtain rfl : b.toNat + k = n := Except.ok.inj h
    rw [List.cons_append, retainedIn, retainedIn_append rs' hr]
    rcases retainedIn rs' with e | l
    · rfl
    · exact congrArg Except.ok (Nat.add_assoc b.toNat k l).symm

/-- The rows from a word of the sentence on. -/
theorem seedFrom_eq : ∀ (rows : List (List (ScoredCategory σ))) (word kept : Nat) (c : Chart κ σ)
    (h : Hasher), word ≤ c.length → seedFrom make word rows kept c h = do
      let (results, c', h') ← addMade make (candidates word (rows.take (c.length - word))) c h
      return (within c.length (word + rows.length) ((retainedIn results).map (kept + ·)), c', h')
  | [], word, kept, c, h, hword => by
    simp [seedFrom, candidates, addMade, retainedIn, within, Except.map, hword]
  | row :: rows, word, kept, c, h, hword => by
    by_cases hin : word < c.length
    · have hcell : ∃ cell, c.cell (.word word) = .ok cell := ⟨_, dif_pos ⟨by simp [Span.word], hin⟩⟩
      obtain ⟨cell, hcell⟩ := hcell
      obtain ⟨k, hk⟩ : ∃ k, c.length - word = k + 1 := ⟨c.length - word - 1, by omega⟩
      rw [hk, List.take_succ_cons, candidates]
      simp only [seedFrom, hcell, seedWord_eq, bind_assoc, pure_bind, addMade_append]
      refine addMade_bind_congr _ fun results c' h' hlength => ?_
      rcases hr : retainedIn results with e | n
      · simp [hr, within, Except.map]
      · have hk' : c'.length - (word + 1) = k := by omega
        have hrows : word + 1 + rows.length = word + (row :: rows).length := by
          rw [List.length_cons]
          omega
        have hrest := seedFrom_eq rows (word + 1) (kept + n) c' h' (by omega)
        rw [hk', hlength, hrows] at hrest
        simp only [Except.map, hrest, bind_assoc, pure_bind]
        refine bind_congr fun r => ?_
        rw [retainedIn_append r.1 hr]
        rcases retainedIn r.1 with e | l
        · rfl
        · simp only [Except.map, Nat.add_assoc]
    · obtain rfl : word = c.length := by omega
      have hcell : c.cell (.word c.length) =
          .error (.spanOutOfRange c.length (c.length + 1) c.length) :=
        dif_neg fun h => absurd h.2 (by simp [Span.word])
      have hrows : ¬ c.length + (rows.length + 1) ≤ c.length := by omega
      simp [seedFrom, hcell, candidates, addMade, retainedIn, within, Except.map, hrows]

/-- **Seeding is a row of offers**: of the items made from the candidates of the words of the
sentence, in order, until one fails. A row beyond the sentence is a failure. -/
theorem seed_eq (c : Chart κ σ) (h : Hasher) (tags : List (List (ScoredCategory σ))) :
    c.seed h tags make = do
      let (results, c', h') ← addMade make (candidates 0 (tags.take c.length)) c h
      return (within c.length tags.length (retainedIn results), c', h') := by
  rw [seed, seedFrom_eq tags 0 0 c h (Nat.zero_le _), Nat.sub_zero, Nat.zero_add]
  refine bind_congr fun r => ?_
  obtain ⟨results, c', h'⟩ := r
  rcases hr : retainedIn results with e | n <;> simp [hr, Except.map]

end CategorialChart.Chart
