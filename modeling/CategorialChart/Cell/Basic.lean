import CategorialChart.Cell.Verdict
import CategorialChart.Fingerprint.Hasher

/-!
# Cells

A cell holds the items that survive for one span of a sentence. It keeps them in groups, each
under a key: a policy with keys has one group per key, and the policy that keeps everything has a
group of its own for every item, under the key of the item.

* `Group`, `Cell`: the groups stand in the order in which their keys were first offered, or in the
  order of the keys if the policy says so. Within a group the items stand in the order of arrival.
* `Cell.entries`, `Cell.entriesFor`, `Cell.size`: what a cell holds.
* `Cell.offer`, `Cell.add`: one offer, under a given key or under the key of the item. Some
  policies take the fingerprint of the item, so an offer also uses the hasher that the cell shares
  with others and gives it back. Where the fingerprint fails, the key has been seen and has its
  group, and nothing else in the cell changes.
-/

namespace CategorialChart

/-- The items that are held under one key. -/
structure Group (κ σ : Type) where
  /-- The key. -/
  key : κ
  /-- The items, oldest first. -/
  items : List (Item κ σ) := []
  /-- The fingerprints of the items, if the policy takes them. -/
  seen : List Fingerprint := []

/-- The item at the end of a group, with its fingerprint if one was taken. -/
def Group.push {κ σ : Type} (item : Item κ σ) (fingerprint : Option Fingerprint)
    (g : Group κ σ) : Group κ σ :=
  { g with items := g.items ++ [item], seen := g.seen ++ fingerprint.toList }

/-- What survives of the items that were offered for a span. -/
structure Cell (κ σ : Type) where
  /-- Which items survive. -/
  policy : Policy σ
  /-- The groups of items. -/
  groups : List (Group κ σ) := []
  /-- What became of the offers. -/
  stats : Stats := {}

namespace Cell

variable {κ σ : Type}

/-! ## What a cell holds -/

/-- The items of a cell. -/
def entries (c : Cell κ σ) : List (Item κ σ) := c.groups.flatMap Group.items

/-- The number of items. -/
def size (c : Cell κ σ) : Nat := c.groups.foldr (fun g n => g.items.length + n) 0

/-- Whether there are no items. -/
def isEmpty (c : Cell κ σ) : Bool := c.size = 0

section Keys
variable [DecidableEq κ]

/-- The groups of a key. -/
def groupsFor (c : Cell κ σ) (key : κ) : List (Group κ σ) := c.groups.filter fun g => g.key = key

/-- The items that are held under a key. -/
def entriesFor (c : Cell κ σ) (key : κ) : List (Item κ σ) := (c.groupsFor key).flatMap Group.items

/-- The fingerprints that are held under a key. -/
def seenFor (c : Cell κ σ) (key : κ) : List Fingerprint := (c.groupsFor key).flatMap Group.seen

/-! ## Changing groups -/

/-- Puts a group before the first one with a greater key. -/
def insertByKey [Ord κ] (g : Group κ σ) : List (Group κ σ) → List (Group κ σ)
  | [] => [g]
  | h :: hs => if compare g.key h.key = .lt then g :: h :: hs else h :: insertByKey g hs

/-- The groups with one for `key` among them: an empty one if the key is new. -/
def groupsWith [Ord κ] (c : Cell κ σ) (key : κ) : List (Group κ σ) :=
  if c.groups.any fun g => g.key = key then c.groups
  else if c.policy.has .orderedKeys then insertByKey { key := key } c.groups
  else c.groups ++ [{ key := key }]

/-- Changes the group of a key. -/
def updateGroup (key : κ) (f : Group κ σ → Group κ σ) (groups : List (Group κ σ)) :
    List (Group κ σ) :=
  groups.map fun g => if g.key = key then f g else g

/-- The cell after an item was added under a key. -/
def keep [Ord κ] (c : Cell κ σ) (key : κ) (item : Item κ σ) (fingerprint : Option Fingerprint) :
    Cell κ σ :=
  { c with
    groups :=
      match c.policy with
      | .unbounded => c.groups ++ [{ key := item.key, items := [item] }]
      | _ => updateGroup key (Group.push item fingerprint) (c.groupsWith key)
    stats := c.stats.retained false }

/-- The cell after an item took the place of the one under its key. -/
def replace (c : Cell κ σ) (key : κ) (item : Item κ σ) : Cell κ σ :=
  { c with
    groups := updateGroup key (fun g => { g with items := [item] }) c.groups
    stats := c.stats.retained true }

/-- The cell after an item was refused. -/
def refuse (c : Cell κ σ) (why : Refusal) : Cell κ σ :=
  { c with stats := c.stats.refused why }

/-! ## Offers -/

/-- **An offer under a key**: whether the item is retained, the cell after it, and the hasher after
it. A new key gets its group when the verdict has been given. The group might as well be made
before, for an empty group refuses nothing: what is refused finds its group there
(`judge_of_entriesFor_eq_nil`). -/
def offer [Ord κ] [LT σ] [DecidableLT σ] [Mul σ] (c : Cell κ σ) (hasher : Hasher) (key : κ)
    (item : Item κ σ) : Except TermError Bool × Cell κ σ × Hasher :=
  match c.policy.judge (c.entriesFor key) item with
  | .refuse why => (.ok false, c.refuse why, hasher)
  | .replace => (.ok true, c.replace key item, hasher)
  | .keep =>
    if c.policy.has .structuralDedup then
      match hasher.fingerprint item.derivation with
      | (.error e, hasher) => (.error e, { c with groups := c.groupsWith key }, hasher)
      | (.ok f, hasher) =>
        if f ∈ c.seenFor key then (.ok false, c.refuse .duplicate, hasher)
        else (.ok true, c.keep key item (some f), hasher)
    else (.ok true, c.keep key item none, hasher)

/-- Under a key that holds nothing every item is kept, as far as the verdict goes. -/
theorem judge_of_entriesFor_eq_nil [LT σ] [DecidableLT σ] [Mul σ] {c : Cell κ σ} {key : κ}
    (h : c.entriesFor key = []) (item : Item κ σ) :
    c.policy.judge (c.entriesFor key) item = .keep := by
  rw [h]
  exact c.policy.judge_nil item

/-- An offer under the key of the item. -/
def add [Ord κ] [LT σ] [DecidableLT σ] [Mul σ] (c : Cell κ σ) (hasher : Hasher)
    (item : Item κ σ) : Except TermError Bool × Cell κ σ × Hasher :=
  c.offer hasher item.key item

end Keys

end Cell

end CategorialChart
