import MiningGame.Block.Input
import MiningGame.State.Basic

/-!
# Turns

A turn is a computation on a game state that records the undo deltas of its changes. When a turn
fails, the changes made so far stay, together with their deltas, so that the caller can take them
back. Blocks change the tables in place; an operation whose answer is worked out beside the table
is a turn as well.
-/

namespace MiningGame

inductive BlockError where
  | character (cause : CharacterError)
  | world (cause : WorldError)
  | conservation (anomaly : Anomaly)
  | totalsOverflow (height : UInt64)
  | rollback (cause : JournalError)
  deriving DecidableEq

def BlockError.message : BlockError → String
  | character cause => "character error: " ++ cause.message
  | world cause => "world error: " ++ cause.message
  | conservation anomaly =>
    "conservation violated at height " ++ Word.text anomaly.height ++ ": " ++ anomaly.message
  | totalsOverflow height => "resource totals overflow at height " ++ Word.text height
  | rollback cause => "rollback of failed block failed: " ++ cause.message

/-- A state in the middle of a block, with the deltas recorded so far. -/
structure Progress where
  state : GameState
  undo : BlockUndo
  deriving DecidableEq

abbrev Turn (α : Type) := EStateM BlockError Progress α

namespace Turn

def state : Turn GameState := fun p ↦ .ok p.state p

def height : Turn UInt64 := fun p ↦ .ok p.undo.height p

/-- An operation on one of the tables in place, which pushes to the record of the block. -/
def inTable {ε τ α : Type} (get : GameState → τ) (set : GameState → τ → GameState)
    (cause : ε → BlockError) (e : Recording ε τ α) : Turn α :=
  Edit.part (fun p ↦ (get p.state, p.undo)) (fun p q ↦ ⟨set p.state q.1, q.2⟩) cause e

section Tables

variable {α : Type}

def inRoster (e : Recording CharacterError Roster α) : Turn α :=
  inTable GameState.roster (fun s roster ↦ { s with roster := roster }) .character e

def inDeposits (e : Recording WorldError Deposits α) : Turn α :=
  inTable GameState.deposits (fun s deposits ↦ { s with deposits := deposits }) .world e

def inLoot (e : Recording WorldError GroundLoot α) : Turn α :=
  inTable GameState.loot (fun s loot ↦ { s with loot := loot }) .world e

/-! ### Operations by their answers -/

/-- An operation on the roster that is worked out beside it: its answer is put in place, or nothing
is done. -/
def onRoster (f : Roster → Except CharacterError (Recorded Roster α)) : Turn α := fun p ↦
  match f p.state.roster with
  | .error e => .error (.character e) p
  | .ok r => .ok r.answer ⟨{ p.state with roster := r.state }, p.undo.append r.deltas⟩

def onDeposits (f : Deposits → Recorded Deposits α) : Turn α := fun p ↦
  let r := f p.state.deposits
  .ok r.answer ⟨{ p.state with deposits := r.state }, p.undo.append r.deltas⟩

def onDeposits? (f : Deposits → Except WorldError (Recorded Deposits α)) : Turn α := fun p ↦
  match f p.state.deposits with
  | .error e => .error (.world e) p
  | .ok r => .ok r.answer ⟨{ p.state with deposits := r.state }, p.undo.append r.deltas⟩

def onLoot (f : GroundLoot → Recorded GroundLoot α) : Turn α := fun p ↦
  let r := f p.state.loot
  .ok r.answer ⟨{ p.state with loot := r.state }, p.undo.append r.deltas⟩

def onLoot? (f : GroundLoot → Except WorldError (Recorded GroundLoot α)) : Turn α := fun p ↦
  match f p.state.loot with
  | .error e => .error (.world e) p
  | .ok r => .ok r.answer ⟨{ p.state with loot := r.state }, p.undo.append r.deltas⟩

end Tables

def character (id : CharacterId) : Turn Character := do
  match (← state).roster.get? id with
  | some c => return c
  | none => throw (.character (.characterNotFound id))

end Turn

end MiningGame
