import CategorialChart.Chart.Basic
import CategorialChart.Workspace

/-!
# Sessions

A parser at work: workspaces, with the cells and the charts that were made in them. A cell keeps
no hasher of its own. An offer to it uses the hasher of its workspace, so that a fingerprint taken
for one cell is remembered for all cells of the workspace, those of earlier sentences among them.
Workspaces, cells and charts have numbers, each kind its own, in the order in which they were
made.

* `Session.act`: one action, with its reply. `Session.run`: several in a row.
* `Session.seed`: the offers that `Chart.seed` makes, to a chart of the session.
* `Session.cell?`: a look at a cell.
-/

namespace CategorialChart

/-- A cell or a chart, with the number of the workspace in which it was made. -/
structure Owned (α : Type) where
  /-- The number of the workspace. -/
  workspace : Nat
  /-- The cell or the chart. -/
  value : α

/-- A place to which items are offered. -/
inductive Place where
  /-- The cell with a number. -/
  | cell (number : Nat)
  /-- The cell of a span in the chart with a number. -/
  | span (chart : Nat) (span : Span)
deriving DecidableEq, Repr

/-- What can be done in a session. -/
inductive Action (κ σ : Type) where
  /-- Makes a workspace that is a fork of another. -/
  | fork (workspace : Nat)
  /-- Makes a workspace forget its sentence. -/
  | newSentence (workspace : Nat)
  /-- Begins a sentence of a number of words. -/
  | startSentence (workspace length : Nat)
  /-- Takes the fingerprint of a derivation. -/
  | fingerprint (workspace : Nat) (derivation : Derivation)
  /-- Makes an empty cell. -/
  | makeCell (workspace : Nat)
  /-- Makes the chart of a sentence, which begins it. -/
  | makeChart (workspace length : Nat)
  /-- Offers an item under a key. -/
  | offer (place : Place) (key : κ) (item : Item κ σ)

/-- What an action answers. -/
inductive Reply where
  /-- There is no workspace, cell or chart with the number. -/
  | unknown
  /-- The action failed. -/
  | failed (error : ChartError)
  /-- It succeeded, and there is nothing to say. -/
  | done
  /-- A workspace, cell or chart was made and has this number. -/
  | made (number : Nat)
  /-- The fingerprint, if the policy takes fingerprints. -/
  | fingerprint (value : Option Fingerprint)
  /-- Whether the item is retained. -/
  | retained (value : Bool)
  /-- The number of items retained. -/
  | seeded (kept : Nat)
deriving DecidableEq, Repr

/-- The reply of an action that may fail. -/
def Reply.of {α : Type} (reply : α → Reply) : Except ChartError α → Reply
  | .ok a => reply a
  | .error e => .failed e

/-- The workspaces of a parser, with the cells and charts made in them. -/
structure Session (κ σ : Type) where
  /-- The workspaces. -/
  workspaces : List (Workspace σ) := []
  /-- The cells that belong to no chart. -/
  cells : List (Owned (Cell κ σ)) := []
  /-- The charts. -/
  charts : List (Owned (Chart κ σ)) := []

namespace Session

variable {κ σ : Type}

/-- A further workspace. -/
def addWorkspace (s : Session κ σ) (w : Workspace σ) : Reply × Session κ σ :=
  (.made s.workspaces.length, { s with workspaces := s.workspaces ++ [w] })

/-- A further cell. -/
def addCell (s : Session κ σ) (c : Owned (Cell κ σ)) : Reply × Session κ σ :=
  (.made s.cells.length, { s with cells := s.cells ++ [c] })

/-- A further chart. -/
def addChart (s : Session κ σ) (c : Owned (Chart κ σ)) : Reply × Session κ σ :=
  (.made s.charts.length, { s with charts := s.charts ++ [c] })

/-- Puts a workspace back after it was used. -/
def putWorkspace (s : Session κ σ) (number : Nat) (w : Workspace σ) : Session κ σ :=
  { s with workspaces := s.workspaces.set number w }

/-- Gives a workspace its hasher back. -/
def putHasher (s : Session κ σ) (number : Nat) (hasher : Hasher) : Session κ σ :=
  { s with workspaces := s.workspaces.modify number fun w => { w with hasher } }

/-- Puts a cell back after an offer. -/
def putCell (s : Session κ σ) (number : Nat) (c : Owned (Cell κ σ)) : Session κ σ :=
  { s with cells := s.cells.set number c }

/-- Puts a chart back after an offer. -/
def putChart (s : Session κ σ) (number : Nat) (c : Owned (Chart κ σ)) : Session κ σ :=
  { s with charts := s.charts.set number c }

/-- The cell at a place. -/
def cell? (s : Session κ σ) : Place → Option (Except ChartError (Cell κ σ))
  | .cell number => s.cells[number]?.map fun c => .ok c.value
  | .span chart span => s.charts[chart]?.map fun c => c.value.cell span

/-- A cell, with the hasher that it uses. -/
def cellInUse? (s : Session κ σ) (number : Nat) : Option (Owned (Cell κ σ) × Hasher) := do
  let c ← s.cells[number]?
  let w ← s.workspaces[c.workspace]?
  return (c, w.hasher)

/-- A chart, with the hasher that it uses. -/
def chartInUse? (s : Session κ σ) (number : Nat) : Option (Owned (Chart κ σ) × Hasher) := do
  let c ← s.charts[number]?
  let w ← s.workspaces[c.workspace]?
  return (c, w.hasher)

section Offers
variable [DecidableEq κ] [Ord κ] [LT σ] [DecidableLT σ] [Mul σ]

/-- Offers an item to the cell at a place. -/
def offer (s : Session κ σ) (key : κ) (item : Item κ σ) : Place → Reply × Session κ σ
  | .cell number =>
    match s.cellInUse? number with
    | none => (.unknown, s)
    | some (c, hasher) =>
      match c.value.offer hasher key item with
      | (result, cell, hasher) =>
        (.of .retained (result.mapError .fingerprint),
          (s.putHasher c.workspace hasher).putCell number { c with value := cell })
  | .span number span =>
    match s.chartInUse? number with
    | none => (.unknown, s)
    | some (c, hasher) =>
      match c.value.offer hasher span key item with
      | (result, chart, hasher) =>
        (.of .retained result,
          (s.putHasher c.workspace hasher).putChart number { c with value := chart })

/-- **One action**: its reply, and the session after it. -/
def act (s : Session κ σ) : Action κ σ → Reply × Session κ σ
  | .fork n =>
    match s.workspaces[n]? with
    | none => (.unknown, s)
    | some w => s.addWorkspace w.fork
  | .newSentence n =>
    match s.workspaces[n]? with
    | none => (.unknown, s)
    | some w => (.done, s.putWorkspace n w.newSentence)
  | .startSentence n length =>
    match s.workspaces[n]? with
    | none => (.unknown, s)
    | some w =>
      match w.startSentence length with
      | (result, w) => (.of (fun _ => .done) result, s.putWorkspace n w)
  | .fingerprint n derivation =>
    match s.workspaces[n]? with
    | none => (.unknown, s)
    | some w =>
      match w.fingerprint derivation with
      | (result, w) => (.of .fingerprint (result.mapError .fingerprint), s.putWorkspace n w)
  | .makeCell n =>
    match s.workspaces[n]? with
    | none => (.unknown, s)
    | some w => s.addCell ⟨n, w.cell⟩
  | .makeChart n length =>
    match s.workspaces[n]? with
    | none => (.unknown, s)
    | some w =>
      match Chart.new w length with
      | (.error e, w) => (.failed e, s.putWorkspace n w)
      | (.ok chart, w) => (s.putWorkspace n w).addChart ⟨n, chart⟩
  | .offer place key item => s.offer key item place

/-- Several actions in a row: their replies, and the session after the last. -/
def run (s : Session κ σ) : List (Action κ σ) → List Reply × Session κ σ
  | [] => ([], s)
  | action :: actions =>
    match s.act action with
    | (reply, s) =>
      match s.run actions with
      | (replies, s) => (reply :: replies, s)

/-- Offers an item for each candidate to a chart of the session. -/
def seed {m : Type → Type} [Monad m] (s : Session κ σ) (number : Nat)
    (tags : List (List (ScoredCategory σ))) (make : Nat → ScoredCategory σ → m (Item κ σ)) :
    m (Reply × Session κ σ) :=
  match s.chartInUse? number with
  | none => return (.unknown, s)
  | some (c, hasher) => do
    let (result, chart, hasher) ← c.value.seed hasher tags make
    return (.of .seeded result,
      (s.putHasher c.workspace hasher).putChart number { c with value := chart })

end Offers

end Session

end CategorialChart
