import CategorialChart.Proofs.Cell.Answer
import CategorialChart.Proofs.List.Repetitions

/-! # What survives of a list of offers

The n-best policies in closed form. Of the items `x₁, …, xₘ` offered under one key, `inBeam` keeps
`x₁` and those that do not fall below the beam of `x₁`, and `survivors` are the first `limit + 1` of
these that repeat no earlier one. What counts as a repetition is a parameter, `same`.

* `outcome xs x`: what becomes of `x` after `xs`: nothing against it, or the reason of its refusal.
* `survivors_concat`: one more offer adds itself or nothing, as its outcome says.
* `withinBeam_survivors`: the verdict of the policies on a list of survivors.
* `outcomes`, `tally`: the outcomes of offers under several keys, and the counters they add up to.
-/

namespace CategorialChart

variable {κ σ : Type}

/-! ### The offers of one key -/

section Scores
variable [LT σ] [DecidableLT σ] [Mul σ]

/-- The item falls below the beam of the first of `xs`. -/
def belowBeam (beam : σ) : List (Item κ σ) → Item κ σ → Bool
  | [], _ => false
  | first :: _, x => x.cost < beam * first.cost

/-- The first item, and those after it that do not fall below its beam. -/
def inBeam (beam : σ) : List (Item κ σ) → List (Item κ σ)
  | [] => []
  | x :: xs => x :: xs.filter fun y => ¬ y.cost < beam * x.cost

/-- **The survivors**: the first `limit + 1` of the items in the beam that repeat none before. -/
def survivors (same : Item κ σ → Item κ σ → Bool) (limit : Nat) (beam : σ)
    (xs : List (Item κ σ)) : List (Item κ σ) :=
  ((inBeam beam xs).eraseDupsBy same).take (limit + 1)

/-- **What becomes of `x`** after `xs` were offered under the same key. -/
def outcome (same : Item κ σ → Item κ σ → Bool) (limit : Nat) (beam : σ) (xs : List (Item κ σ))
    (x : Item κ σ) : Option Refusal :=
  if limit < (survivors same limit beam xs).length then some .count
  else if belowBeam beam xs x then some .beam
  else if (inBeam beam xs).any (same x) then some .duplicate
  else none

theorem inBeam_concat (beam : σ) (xs : List (Item κ σ)) (x : Item κ σ) :
    inBeam beam (xs ++ [x]) = inBeam beam xs ++ if belowBeam beam xs x then [] else [x] := by
  cases xs with
  | nil => rfl
  | cons first xs =>
    rw [List.cons_append, inBeam, inBeam, belowBeam, List.filter_append]
    by_cases h : x.cost < beam * first.cost <;> simp [h]

theorem mem_inBeam {beam : σ} {xs : List (Item κ σ)} {x : Item κ σ}
    (h : belowBeam beam xs x = false) (ys : List (Item κ σ)) :
    x ∈ inBeam beam (xs ++ x :: ys) := by
  cases xs with
  | nil => exact List.mem_cons_self
  | cons first xs =>
    rw [List.cons_append, inBeam, List.mem_cons]
    right
    rw [belowBeam, decide_eq_false_iff_not] at h
    exact List.mem_filter.mpr ⟨by simp, by simpa using h⟩

theorem head?_inBeam (beam : σ) (xs : List (Item κ σ)) : (inBeam beam xs).head? = xs.head? := by
  cases xs <;> rfl

variable {same : Item κ σ → Item κ σ → Bool} {limit : Nat} {beam : σ}

theorem head?_survivors (xs : List (Item κ σ)) :
    (survivors same limit beam xs).head? = xs.head? := by
  rw [survivors, List.head?_take, if_neg (Nat.succ_ne_zero limit), ← head?_inBeam beam xs]
  cases inBeam beam xs with
  | nil => rfl
  | cons y ys => rw [List.eraseDupsBy_cons]; rfl

theorem survivors_concat (hs : ∀ a b c, same a b = true → same b c = true → same a c = true)
    (xs : List (Item κ σ)) (x : Item κ σ) :
    survivors same limit beam (xs ++ [x]) =
      survivors same limit beam xs ++
        if outcome same limit beam xs x = none then [x] else [] := by
  unfold outcome
  generalize hl : survivors same limit beam xs = held
  rw [survivors] at hl ⊢
  rw [inBeam_concat]
  by_cases hb : belowBeam beam xs x = true
  · rw [if_pos hb, List.append_nil, hl]
    split <;> simp
  · rw [if_neg hb, eraseDupsBy_concat hs, List.take_append, hl]
    have hlen : held.length =
        min (limit + 1) ((inBeam beam xs).eraseDupsBy same).length := by
      rw [← hl, List.length_take]
    congr 1
    by_cases hc : limit < held.length
    · have h0 : limit + 1 - ((inBeam beam xs).eraseDupsBy same).length = 0 := by omega
      rw [h0, if_pos hc]
      simp
    · obtain ⟨n, hn⟩ : ∃ n, limit + 1 - ((inBeam beam xs).eraseDupsBy same).length = n + 1 :=
        ⟨limit - ((inBeam beam xs).eraseDupsBy same).length, by omega⟩
      rw [hn, if_neg hc, if_neg hb]
      by_cases ha : (inBeam beam xs).any (same x) = true
      · simp [ha]
      · simp [ha]

/-- While there is room, everything in the beam is held or repeats something held. -/
theorem any_survivors (hs : ∀ a b c, same a b = true → same b c = true → same a c = true)
    {xs : List (Item κ σ)} (h : (survivors same limit beam xs).length ≤ limit) (x : Item κ σ) :
    (survivors same limit beam xs).any (same x) = (inBeam beam xs).any (same x) := by
  rw [survivors, List.length_take] at h
  rw [survivors, List.take_of_length_le (by omega), any_eraseDupsBy hs]

theorem withinBeam_survivors (xs : List (Item κ σ)) (x : Item κ σ) :
    withinBeam limit beam (survivors same limit beam xs) x =
      if limit < (survivors same limit beam xs).length then .refuse .count
      else if belowBeam beam xs x then .refuse .beam
      else .keep := by
  have hh : (survivors same limit beam xs).head? = xs.head? := head?_survivors xs
  unfold withinBeam
  split
  · rfl
  · cases xs with
    | nil =>
      rw [List.head?_nil, List.head?_eq_none_iff] at hh
      rw [hh]
      rfl
    | cons first xs =>
      rw [List.head?_cons, List.head?_eq_some_iff] at hh
      obtain ⟨ys, hy⟩ := hh
      rw [hy]
      by_cases h : x.cost < beam * first.cost <;> simp [belowBeam, h]

theorem withinBeam_survivors_eq_keep {xs : List (Item κ σ)} {x : Item κ σ} :
    withinBeam limit beam (survivors same limit beam xs) x = .keep ↔
      (survivors same limit beam xs).length ≤ limit ∧ belowBeam beam xs x = false := by
  rw [withinBeam_survivors]
  by_cases hcount : limit < (survivors same limit beam xs).length
  · simp [hcount, Nat.not_le.mpr hcount]
  · cases hbeam : belowBeam beam xs x <;> simp [hcount, Nat.not_lt.mp hcount]

end Scores

/-! ### Offers under several keys -/

section Keys
variable [DecidableEq κ]

/-- The items that are offered under a key. -/
def under (key : κ) (offers : List (κ × Item κ σ)) : List (Item κ σ) :=
  (offers.filter fun o => o.1 = key).map Prod.snd

/-- The items under the key of an offer, before it and after it. -/
theorem under_append_cons (key : κ) (offers : List (κ × Item κ σ)) (x : Item κ σ)
    (later : List (κ × Item κ σ)) :
    under key (offers ++ (key, x) :: later) = under key offers ++ x :: under key later := by
  simp [under]

theorem under_concat (key : κ) (offers : List (κ × Item κ σ)) (o : κ × Item κ σ) :
    under key (offers ++ [o]) = under key offers ++ if o.1 = key then [o.2] else [] := by
  rw [under, List.filter_append, List.map_append, ← under]
  by_cases h : o.1 = key <;> simp [h]

theorem mem_of_mem_under {k : κ} {offers : List (κ × Item κ σ)} {x : Item κ σ}
    (h : x ∈ under k offers) : (k, x) ∈ offers := by
  obtain ⟨o, ho, rfl⟩ := List.mem_map.mp h
  obtain ⟨hmem, hk⟩ := List.mem_filter.mp ho
  rwa [← of_decide_eq_true hk]

/-- An offer and those before it are among the offers of its key. -/
theorem under_take_sublist (offers : List (κ × Item κ σ)) {i : Nat}
    (hi : i < offers.length) :
    (under offers[i].1 (offers.take i) ++ [offers[i].2]).Sublist (under offers[i].1 offers) := by
  have h : under offers[i].1 (offers.take (i + 1)) =
      under offers[i].1 (offers.take i) ++ [offers[i].2] := by
    rw [← List.take_append_getElem hi, under_concat, if_pos rfl]
  rw [← h]
  exact ((List.take_sublist _ offers).filter _).map Prod.snd

variable [LT σ] [DecidableLT σ] [Mul σ]

/-- One more offer under any key adds itself to the survivors of its own key, or to none. -/
theorem survivors_under_concat {same : Item κ σ → Item κ σ → Bool}
    (hs : ∀ a b c, same a b = true → same b c = true → same a c = true) (limit : Nat) (beam : σ)
    (k : κ) (offers : List (κ × Item κ σ)) (o : κ × Item κ σ) :
    survivors same limit beam (under k (offers ++ [o])) =
      survivors same limit beam (under k offers) ++
        if o.1 = k ∧ outcome same limit beam (under o.1 offers) o.2 = none then [o.2] else [] := by
  rw [under_concat]
  by_cases hk : o.1 = k
  · rw [if_pos hk, survivors_concat hs, hk]
    simp only [true_and]
  · rw [if_neg hk, List.append_nil, if_neg fun h => hk h.1, List.append_nil]

/-- What becomes of each of several offers, after those before it. -/
def outcomes (same : Item κ σ → Item κ σ → Bool) (limit : Nat) (beam : σ)
    (offers : List (κ × Item κ σ)) : List (Option Refusal) :=
  offers.mapIdx fun i o => outcome same limit beam (under o.1 (offers.take i)) o.2

theorem outcomes_concat (same : Item κ σ → Item κ σ → Bool) (limit : Nat) (beam : σ)
    (offers : List (κ × Item κ σ)) (o : κ × Item κ σ) :
    outcomes same limit beam (offers ++ [o]) =
      outcomes same limit beam offers ++ [outcome same limit beam (under o.1 offers) o.2] := by
  rw [outcomes, List.mapIdx_concat, List.take_left, outcomes]
  congr 1
  refine List.mapIdx_eq_mapIdx_iff.mpr fun i hi => ?_
  rw [List.take_append_of_le_length (Nat.le_of_lt hi)]

end Keys

/-- **The counters that outcomes add up to.** -/
def tally (results : List (Option Refusal)) : Stats where
  offered := results.length
  admitted := results.count none
  occupied := results.count (some .occupied)
  notBetter := results.count (some .notBetter)
  count := results.count (some .count)
  beam := results.count (some .beam)
  duplicate := results.count (some .duplicate)

theorem tally_concat_none (results : List (Option Refusal)) :
    tally (results ++ [none]) = (tally results).retained false := by
  simp [tally, Stats.retained, List.count_append]

theorem tally_concat_some (results : List (Option Refusal)) (why : Refusal) :
    tally (results ++ [some why]) = (tally results).refused why := by
  cases why <;> simp [tally, Stats.refused, List.count_append]

end CategorialChart
