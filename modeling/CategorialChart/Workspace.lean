import CategorialChart.Random.ChaCha
import CategorialChart.Workspace.Basic

/-!
# New workspaces

The workspaces with which a parser begins. Their random words are those of `Random.word`.

* `Workspace.new`, `Workspace.withPolicy`: a workspace with and without the categories of a
  grammar.
-/

namespace CategorialChart.Workspace

variable {σ : Type} [LT σ] [DecidableLT σ] [LE σ] [DecidableLE σ] [OfNat σ 0] [OfNat σ 1]

/-- A workspace for a grammar. Options without a seed have their random words grown from
`entropy`. -/
def new (options : ChartOptions σ) (entropy : UInt64) (categories : List Category) :
    Except (OptionError σ) (Workspace σ) :=
  ofGrammar Random.word options entropy categories

/-- A workspace for a policy that takes no fingerprints. -/
def withPolicy (policy : Policy σ) : Except (OptionError σ) (Workspace σ) :=
  if policy.has .structuralDedup then .error (.needsCategories policy)
  else new { policy := policy } 0 []

end CategorialChart.Workspace
