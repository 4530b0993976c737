import MiningGame.Character.Mining
import MiningGame.Conservation
import MiningGame.Loot

/-!
# The game state

Everything that blocks change: deposits, characters and ground loot, on a fixed grid. A delta is
reverted in place by the table that it is about, and an error keeps the wording of that table.
-/

namespace MiningGame

structure GameState where
  grid : Grid
  deposits : Deposits
  roster : Roster
  loot : GroundLoot
  deriving DecidableEq

namespace GameState

def new (grid : Grid) : GameState := ⟨grid, .empty, .empty, .empty⟩

/-- The sums of all buckets, unless one is no word. -/
def totals? (s : GameState) : Option ResourceTotals := do
  let prospected ← Bundle.tallyAll? ∅ s.deposits.prospected.entries
  let remaining ← Bundle.tallyAll? ∅ s.deposits.remainingAmounts
  let carried ← Bundle.tallyAll? ∅ s.roster.carriedAmounts
  let loot ← Bundle.tallyAll? ∅ s.loot.amounts
  return ⟨prospected, remaining, carried, loot⟩

/-- The state with deposits that an operation answered, or its error as a journal error. -/
def withDeposits (s : GameState) (height : UInt64) :
    Except WorldError Deposits → Except JournalError GameState
  | .error e => .error (.undoInconsistency height e.message)
  | .ok deposits => .ok { s with deposits := deposits }

/-- The state with a roster that an operation answered, or its error as a journal error. -/
def withRoster (s : GameState) (height : UInt64) :
    Except CharacterError Roster → Except JournalError GameState
  | .error e => .error (.undoInconsistency height e.message)
  | .ok roster => .ok { s with roster := roster }

/-- The state with ground loot that an operation answered, or its error as a journal error. -/
def withLoot (s : GameState) (height : UInt64) :
    Except WorldError GroundLoot → Except JournalError GameState
  | .error e => .error (.undoInconsistency height e.message)
  | .ok loot => .ok { s with loot := loot }

/-- The state that a delta leads back to, worked out beside the one there is. -/
def reverted (s : GameState) (height : UInt64) : UndoDelta → Except JournalError GameState
  | .characterCreated id => s.withRoster height (s.roster.restoreCreated id)
  | .miningStatus id previous => s.withRoster height (s.roster.restoreMining id previous)
  | .waypoints id previous => s.withRoster height (s.roster.restoreWaypoints id previous)
  | .position id previous => s.withRoster height (s.roster.restorePosition id previous)
  | .inventoryCredited id resource amount =>
    s.withRoster height (s.roster.restoreCredited id resource amount)
  | .inventoryDebited id resource amount =>
    s.withRoster height (s.roster.restoreDebited id resource amount)
  | .regionProspected region previous resource amount =>
    s.withDeposits height (s.deposits.restoreProspected region previous resource amount)
  | .regionExtracted region resource amount =>
    s.withDeposits height (s.deposits.restoreExtracted region resource amount)
  | .lootDropped position resource amount =>
    s.withLoot height (s.loot.restoreDropped position resource amount)
  | .lootPickedUp position resource amount =>
    s.withLoot height (s.loot.restorePickedUp position resource amount)

/-- The edit of one of the tables; its errors become journal errors. -/
def inTable {ε τ : Type} (get : GameState → τ) (set : GameState → τ → GameState)
    (message : ε → String) (height : UInt64) (e : Edit ε τ Unit) : Edit JournalError GameState Unit :=
  Edit.part get set (fun x ↦ .undoInconsistency height (message x)) e

def inRoster : UInt64 → Edit CharacterError Roster Unit → Edit JournalError GameState Unit :=
  inTable roster (fun s roster ↦ { s with roster := roster }) CharacterError.message

def inDeposits : UInt64 → Edit WorldError Deposits Unit → Edit JournalError GameState Unit :=
  inTable deposits (fun s deposits ↦ { s with deposits := deposits }) WorldError.message

def inLoot : UInt64 → Edit WorldError GroundLoot Unit → Edit JournalError GameState Unit :=
  inTable loot (fun s loot ↦ { s with loot := loot }) WorldError.message

/-- Takes back one delta in place. -/
def revert : Reverter GameState := fun height δ ↦
  match δ with
  | .characterCreated id => inRoster height (Roster.uncreate id)
  | .miningStatus id previous => inRoster height (Roster.setBack .mining id previous)
  | .waypoints id previous => inRoster height (Roster.setBack .waypoints id previous)
  | .position id previous => inRoster height (Roster.setBack .position id previous)
  | .inventoryCredited id resource amount =>
    inRoster height (Roster.uncredit id resource amount)
  | .inventoryDebited id resource amount => inRoster height (Roster.undebit id resource amount)
  | .regionProspected region previous resource amount =>
    inDeposits height (Deposits.unassign region previous resource amount)
  | .regionExtracted region resource amount =>
    inDeposits height (Deposits.unextract region resource amount)
  | .lootDropped position resource amount =>
    inLoot height (GroundLoot.lower position resource amount)
  | .lootPickedUp position resource amount =>
    inLoot height (GroundLoot.raise position resource amount)

end GameState

end MiningGame
