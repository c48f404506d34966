import CategorialChart.Cell.Basic
import CategorialChart.Options

/-!
# Workspaces

What the cells of a parser share and what outlives them: the policy that they follow, and the
hasher that takes their fingerprints. A workspace is made once for a grammar; a new sentence makes
it forget the fingerprints of the sentence before.

* `Workspace.ofGrammar`: a new workspace, with any stream of random words.
* `Workspace.fork`: the same policy and table, with nothing remembered.
* `Workspace.newSentence`, `Workspace.startSentence`: the next sentence.
* `ChartError`: what can go wrong from here on.
-/

namespace CategorialChart

variable {σ : Type}

/-- What the cells of a parser share. -/
structure Workspace (σ : Type) where
  /-- The policy of the cells. -/
  policy : Policy σ
  /-- What takes the fingerprints. -/
  hasher : Hasher

namespace Workspace

section Grammar
variable [LT σ] [DecidableLT σ] [LE σ] [DecidableLE σ] [OfNat σ 0] [OfNat σ 1]

/-- A workspace for a grammar. Only policies that take fingerprints read its categories. The random
words are those that `words` grows from the seed of the options, or from `entropy` if they have
none. -/
def ofGrammar (words : UInt64 → Nat → UInt64) (options : ChartOptions σ) (entropy : UInt64)
    (categories : List Category) : Except (OptionError σ) (Workspace σ) := do
  options.validate
  let stream := words (options.seed.getD entropy)
  let categories := if options.policy.has .structuralDedup then categories else []
  return ⟨options.policy, { table := .build stream options.maxSentenceLength categories }⟩

/-- The workspace of a grammar has nothing remembered yet. -/
theorem ofGrammar_eq_ok {words : UInt64 → Nat → UInt64} {options : ChartOptions σ}
    {entropy : UInt64} {categories : List Category} {w : Workspace σ} :
    ofGrammar words options entropy categories = .ok w ↔
      options.validate = .ok () ∧
        w = ⟨options.policy,
          { table := .build (words (options.seed.getD entropy)) options.maxSentenceLength
              (if options.policy.has .structuralDedup then categories else []) }⟩ := by
  rw [ofGrammar]
  rcases hv : options.validate with e | u
  · exact ⟨nofun, nofun⟩
  · exact ⟨fun h => ⟨rfl, (Except.ok.inj h).symm⟩, fun h => congrArg Except.ok h.2.symm⟩

end Grammar

/-- A workspace with the same policy and table that remembers nothing. -/
def fork (w : Workspace σ) : Workspace σ := { w with hasher := { table := w.hasher.table } }

/-- The number of words of the longest sentence for which fingerprints can be taken. -/
def maxSentenceLength (w : Workspace σ) : Nat := w.hasher.table.maxLength

/-- An empty cell. -/
def cell {κ : Type} (w : Workspace σ) : Cell κ σ := { policy := w.policy }

/-- The fingerprint of a derivation, if the policy takes fingerprints. -/
def fingerprint (w : Workspace σ) (d : Derivation) :
    Except TermError (Option Fingerprint) × Workspace σ :=
  if w.policy.has .structuralDedup then
    let (result, hasher) := w.hasher.fingerprint d
    (result.map some, { w with hasher })
  else (.ok none, w)

theorem policy_fingerprint (w : Workspace σ) (d : Derivation) :
    (w.fingerprint d).2.policy = w.policy := by
  unfold fingerprint
  split <;> rfl

theorem hasher_fingerprint (w : Workspace σ) (d : Derivation) : (w.fingerprint d).2.hasher =
    if w.policy.has .structuralDedup then (w.hasher.fingerprint d).2 else w.hasher := by
  unfold fingerprint
  split <;> rfl

end Workspace

/-! ## Sentences -/

/-- Why an operation on a chart failed. -/
inductive ChartError where
  /-- The sentence has more words than fingerprints can be taken for. -/
  | sentenceTooLong (length maxLength : Nat)
  /-- The span is empty, reversed, or reaches beyond the sentence. -/
  | spanOutOfRange (start stop length : Nat)
  /-- A fingerprint cannot be taken. -/
  | fingerprint (cause : TermError)
deriving DecidableEq, Repr

/-- The text of the error. -/
def ChartError.message : ChartError → String
  | .sentenceTooLong length maxLength =>
    s!"sentence of {length} words exceeds the configured maximum of {maxLength}"
  | .spanOutOfRange start stop length =>
    s!"span {start}..{stop} is outside a sentence of {length} words"
  | .fingerprint cause => cause.message

namespace Workspace

/-- Forgets the fingerprints of the sentence. -/
def newSentence (w : Workspace σ) : Workspace σ := { w with hasher := w.hasher.clear }

/-- Forgets the fingerprints of the sentence, then refuses a sentence that is too long for the next
ones. Policies that take none are not limited. -/
def startSentence (w : Workspace σ) (length : Nat) : Except ChartError Unit × Workspace σ :=
  let w := w.newSentence
  if w.policy.has .structuralDedup ∧ w.maxSentenceLength < length then
    (.error (.sentenceTooLong length w.maxSentenceLength), w)
  else (.ok (), w)

end Workspace

end CategorialChart
