import CategorialChart.Proofs.Cell.Answer
import CategorialChart.Proofs.Fingerprint.Memory

/-! # Offers in a row

A `transcript` is what a machine answers to requests in a row, with its state after the last. Offers
to a cell (`Cell.offerAll`) give each the hasher that the one before gives back.

* `transcript_related`: two machines that answer alike in related states, and go on to related
  states, have the same answers to all requests.
* `Cell.offerAll_spec`: with a hasher in use, the cell answers as if every fingerprint were taken by
  the plain walk (`Cell.answerAll`).
* `Cell.Reached`: the cells that come about by offers, failed ones among them, with whatever else
  their hashers were used for between the offers. -/

namespace CategorialChart

open CategorialChart.Derivation (OwnNumbers)

/-! ### Transcripts -/

section Transcript
variable {S S' A R : Type}

/-- The answers to several requests in a row, and the state after the last. -/
def transcript (step : S → A → R × S) : S → List A → List R × S
  | s, [] => ([], s)
  | s, a :: as =>
    ((step s a).1 :: (transcript step (step s a).2 as).1, (transcript step (step s a).2 as).2)

theorem transcript_map {B : Type} (step : S → A → R × S) (f : B → A) : ∀ (bs : List B) (s : S),
    transcript step s (bs.map f) = transcript (fun s b => step s (f b)) s bs
  | [], _ => rfl
  | b :: bs, s => by
    rw [List.map_cons, transcript, transcript_map step f bs, transcript]

theorem length_transcript (step : S → A → R × S) : ∀ (as : List A) (s : S),
    (transcript step s as).1.length = as.length
  | [], _ => rfl
  | a :: as, s => by rw [transcript, List.length_cons, length_transcript step as, List.length_cons]

/-- Requests after others are put to the state that these leave. -/
theorem transcript_append (step : S → A → R × S) (bs : List A) : ∀ (as : List A) (s : S),
    transcript step s (as ++ bs) =
      ((transcript step s as).1 ++ (transcript step (transcript step s as).2 bs).1,
        (transcript step (transcript step s as).2 bs).2)
  | [], _ => rfl
  | a :: as, s => by
    rw [List.cons_append, transcript, transcript_append step bs as, transcript]
    rfl

theorem transcript_concat (step : S → A → R × S) (a : A) (as : List A) (s : S) :
    transcript step s (as ++ [a]) =
      ((transcript step s as).1 ++ [(step (transcript step s as).2 a).1],
        (step (transcript step s as).2 a).2) :=
  transcript_append step [a] as s

/-- **A single request** among others: its answer, and the state after it, are those that it has in
the state before it. -/
theorem transcript_at (step : S → A → R × S) (as : List A) {i : Nat} (hi : i < as.length) (s : S) :
    (transcript step s as).1[i]? = some (step (transcript step s (as.take i)).2 as[i]).1 ∧
      (transcript step s (as.take (i + 1))).2 =
        (step (transcript step s (as.take i)).2 as[i]).2 := by
  have hnext : as.take (i + 1) = as.take i ++ [as[i]] := (List.take_append_getElem hi).symm
  have hlast := transcript_concat step as[i] (as.take i) s
  refine ⟨?_, by rw [hnext, hlast]⟩
  have hsplit := transcript_append step (as.drop (i + 1)) (as.take (i + 1)) s
  have hlength : (transcript step s (as.take i)).1.length = i := by
    rw [length_transcript, List.length_take]
    omega
  rw [List.take_append_drop, hnext, hlast] at hsplit
  rw [hsplit, List.append_assoc, List.getElem?_append_right (Nat.le_of_eq hlength), hlength,
    Nat.sub_self]
  rfl

/-- What a request preserves, requests in a row preserve. -/
theorem transcript_keeps {step : S → A → R × S} {P : S → Prop}
    (hstep : ∀ s a, P s → P (step s a).2) : ∀ (as : List A) {s : S}, P s →
      P (transcript step s as).2
  | [], _, hs => hs
  | a :: as, _, hs => transcript_keeps hstep as (hstep _ a hs)

/-- **Related states answer alike** and stay related, if they do so for each request. -/
theorem transcript_related {step : S → A → R × S} {step' : S' → A → R × S'} {r : S → S' → Prop} :
    ∀ {as : List A}, (∀ a ∈ as, ∀ s s', r s s' →
      (step s a).1 = (step' s' a).1 ∧ r (step s a).2 (step' s' a).2) →
    ∀ {s : S} {s' : S'}, r s s' →
      (transcript step s as).1 = (transcript step' s' as).1 ∧
        r (transcript step s as).2 (transcript step' s' as).2
  | [], _, _, _, hs => ⟨rfl, hs⟩
  | a :: as, hstep, s, s', hs => by
    obtain ⟨h1, h2⟩ := hstep a List.mem_cons_self s s' hs
    obtain ⟨h3, h4⟩ := transcript_related
      (fun b hb => hstep b (List.mem_cons_of_mem a hb)) h2
    rw [transcript, transcript, h1, h3]
    exact ⟨rfl, h4⟩

end Transcript

variable {κ σ : Type} [DecidableEq κ] [Ord κ] [LT σ] [DecidableLT σ] [Mul σ]

namespace Cell

/-! ### Offers to a cell -/

/-- Offers under their keys, in a row: the results, and the cell and the hasher after the last. -/
def offerAll (c : Cell κ σ) (hasher : Hasher) (offers : List (κ × Item κ σ)) :
    List (Except TermError Bool) × Cell κ σ × Hasher :=
  transcript (fun s o => s.1.offer s.2 o.1 o.2) (c, hasher) offers

/-- The same where every fingerprint is taken by the plain walk. -/
def answerAll (t : ContributionTable) (c : Cell κ σ) (offers : List (κ × Item κ σ)) :
    List (Except TermError Bool) × Cell κ σ :=
  transcript (fun c o => c.answer (t.fingerprint o.2.derivation) o.1 o.2) c offers

variable {t : ContributionTable} {D : Set Derivation}

theorem offer_spec (hD : OwnNumbers D) (c : Cell κ σ) {h : Hasher} (hr : h.Reached t D) (key : κ)
    {item : Item κ σ} (hd : item.derivation ∈ D) :
    (c.offer h key item).1 = (c.answer (t.fingerprint item.derivation) key item).1 ∧
      (c.offer h key item).2.1 = (c.answer (t.fingerprint item.derivation) key item).2 ∧
      (c.offer h key item).2.2.Reached t D := by
  rw [offer_eq, hr.fingerprint_eq hD hd]
  exact ⟨rfl, rfl, hr.used hd (c.asks key item)⟩

/-- **With a hasher in use** offers are answered by the plain walk, and the hasher stays in use. -/
theorem offerAll_spec (hD : OwnNumbers D) (c : Cell κ σ) {h : Hasher} (hr : h.Reached t D)
    {offers : List (κ × Item κ σ)} (hd : ∀ o ∈ offers, o.2.derivation ∈ D) :
    (c.offerAll h offers).1 = (answerAll t c offers).1 ∧
      (c.offerAll h offers).2.1 = (answerAll t c offers).2 ∧
      (c.offerAll h offers).2.2.Reached t D := by
  have hstep : ∀ o ∈ offers, ∀ (s : Cell κ σ × Hasher) (c' : Cell κ σ),
      (s.1 = c' ∧ s.2.Reached t D) →
        (s.1.offer s.2 o.1 o.2).1 = (c'.answer (t.fingerprint o.2.derivation) o.1 o.2).1 ∧
          (s.1.offer s.2 o.1 o.2).2.1 = (c'.answer (t.fingerprint o.2.derivation) o.1 o.2).2 ∧
            (s.1.offer s.2 o.1 o.2).2.2.Reached t D := by
    rintro o ho ⟨c, h⟩ c' ⟨rfl, hr⟩
    exact offer_spec hD c hr o.1 (hd o ho)
  exact transcript_related hstep ⟨rfl, hr⟩

/-- The cell comes about from an empty one by offers, each with a hasher in use. Between the offers
the hashers may be used for anything else, and sentences may end. -/
inductive Reached (t : ContributionTable) (D : Set Derivation) (policy : Policy σ) :
    Cell κ σ → List (κ × Item κ σ) → Prop
  | new : Reached t D policy { policy := policy } []
  | offer {c : Cell κ σ} {past : List (κ × Item κ σ)} {h : Hasher} {key : κ} {item : Item κ σ} :
      Reached t D policy c past → h.Reached t D → item.derivation ∈ D →
        Reached t D policy (c.offer h key item).2.1 (past ++ [(key, item)])

theorem Reached.offerAll (hD : OwnNumbers D) {policy : Policy σ} : ∀ {later : List (κ × Item κ σ)}
    {c : Cell κ σ} {past : List (κ × Item κ σ)} {h : Hasher}, c.Reached t D policy past →
      h.Reached t D → (∀ o ∈ later, o.2.derivation ∈ D) →
        (c.offerAll h later).2.1.Reached t D policy (past ++ later)
  | [], c, past, h, hc, _, _ => by
    rw [List.append_nil]
    exact hc
  | o :: later, c, past, h, hc, hr, hd => by
    have ho := hd o List.mem_cons_self
    have hc' : (c.offer h o.1 o.2).2.1.Reached t D policy (past ++ [(o.1, o.2)]) :=
      .offer hc hr ho
    have hr' := (offer_spec hD c hr o.1 ho).2.2
    have h := Reached.offerAll hD hc' hr' fun p hp => hd p (List.mem_cons_of_mem o hp)
    rw [List.append_assoc] at h
    exact h

end Cell

end CategorialChart
