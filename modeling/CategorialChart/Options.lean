import CategorialChart.Policy
import CategorialChart.Score.Binary64

/-!
# Options

What a user sets, and which settings are refused.

* `ChartOptions`, `ChartOptions.validate`: how charts retain items, and for which sentences they can
  take fingerprints.
* `TaggerOptions`, `TaggerOptions.validated`: how many categories a word keeps.
* `OptionError`: the causes of a refusal. Where two settings are wrong, the order of the checks
  decides which is reported.
-/

namespace CategorialChart

variable {σ : Type}

/-- Why a setting was refused. -/
inductive OptionError (σ : Type) where
  /-- The relative beam of an n-best policy is not above `0` and at most `1`. -/
  | nBestBeam (beam : σ)
  /-- A policy takes fingerprints, and no sentence is short enough for them. -/
  | noSentenceFits
  /-- A policy takes fingerprints, which need the categories of the grammar. -/
  | needsCategories (policy : Policy σ)
  /-- The relative beam of the tagger is not between `0` and `1`. -/
  | tagBeam (beta : σ)
  /-- The tagger may keep no category at all. -/
  | noTags
deriving DecidableEq, Repr

namespace OptionError

/-- The name of the option that was refused. -/
def option : OptionError σ → String
  | .nBestBeam _ => "nbest_beam"
  | .noSentenceFits => "max_sentence_length"
  | .needsCategories _ => "policy"
  | .tagBeam _ => "beta"
  | .noTags => "max_tags_per_word"

/-- Why it was refused. -/
def reason [ToString σ] : OptionError σ → String
  | .nBestBeam beam => s!"{beam} is not in (0, 1]"
  | .noSentenceFits => "must be positive for policies that fingerprint derivations"
  | .needsCategories policy => s!"{policy.name} needs the grammar's category set"
  | .tagBeam beta => s!"{beta} is not in [0, 1]"
  | .noTags => "at least one tag per word is required"

/-- The text of the error. -/
def message [ToString σ] (e : OptionError σ) : String :=
  s!"invalid option {e.option}: {e.reason}"

end OptionError

/-! ## Charts -/

/-- The options of a chart. -/
structure ChartOptions (σ : Type) where
  /-- The policy of every cell. -/
  policy : Policy σ := .oneBest
  /-- The number of words of the longest sentence for which fingerprints can be taken. -/
  maxSentenceLength : Nat := 70
  /-- What the random terms of fingerprints are grown from, if it is to be always the same. -/
  seed : Option UInt64 := none
deriving DecidableEq, Repr

/-- Refuses a beam that is no fraction, and fingerprints without a sentence to take them in. -/
def ChartOptions.validate [LT σ] [DecidableLT σ] [LE σ] [DecidableLE σ] [OfNat σ 0] [OfNat σ 1]
    (o : ChartOptions σ) : Except (OptionError σ) Unit :=
  match o.policy.beam? with
  | some beam => if 0 < beam ∧ beam ≤ 1 then sentences else .error (.nBestBeam beam)
  | none => sentences
where
  /-- The check of the sentence length. -/
  sentences : Except (OptionError σ) Unit :=
    if o.policy.has .structuralDedup ∧ o.maxSentenceLength = 0 then .error .noSentenceFits
    else .ok ()

/-! ## Taggers -/

/-- The options of a tagger. -/
structure TaggerOptions (σ : Type) where
  /-- The relative beam, a fraction of the probability of the best category. -/
  beta : σ
  /-- The greatest number of categories per word. -/
  maxTags : Nat
deriving DecidableEq, Repr

/-- The options from which a tagger starts. -/
def TaggerOptions.standard : TaggerOptions Binary64 where
  beta := 0.0001
  maxTags := 50

/-- The options with these values. Refuses a beam that is no fraction, then a cap of no category. -/
def TaggerOptions.validated [LE σ] [DecidableLE σ] [OfNat σ 0] [OfNat σ 1] (beta : σ)
    (maxTags : Nat) : Except (OptionError σ) (TaggerOptions σ) :=
  if 0 ≤ beta ∧ beta ≤ 1 then
    if maxTags = 0 then .error .noTags else .ok ⟨beta, maxTags⟩
  else .error (.tagBeam beta)

end CategorialChart
