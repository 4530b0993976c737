import MiningGame.Block.Extraction
import MiningGame.Block.Movement
import MiningGame.Block.Moves

/-!
# Processing a block

A block creates characters, carries out moves, lets everybody walk, lets miners extract and ends
with the audit. If any part fails, all changes are taken back.
-/

namespace MiningGame

/-- What all blocks have in common. -/
structure BlockRules where
  rate : UInt64
  prospector : Prospector
  movement : Movement

/-- Creates a character; a name that its owner already uses is skipped. -/
def Recording.createIfNew (c : CreateCharacter) : Recording CharacterError Roster Unit :=
  tryCatch (do let _ ← create c.owner c.name c.position) fun
    | .duplicateName .. => pure ()
    | e => throw e

namespace Turn

def create (c : CreateCharacter) : Turn Unit := inRoster (.createIfNew c)

def audit : Turn Unit := do
  let height ← height
  match (← state).totals? with
  | none => throw (.totalsOverflow height)
  | some totals =>
    match totals.audit height with
    | none => return
    | some anomaly => throw (.conservation anomaly)

def block (rules : BlockRules) (b : BlockInput) : Turn Unit := do
  b.creates.forM create
  moves rules.prospector b.moves
  movement rules.movement
  let _ ← extraction rules.rate
  audit

end Turn

/-- Applies a block and answers its undo record. A block that fails leaves the state as it was,
unless its changes cannot be taken back, which has an error of its own. -/
def processBlock (rules : BlockRules) (b : BlockInput) :
    EStateM BlockError GameState BlockUndo := fun s ↦
  match Turn.block rules b ⟨s, .new b.height⟩ with
  | .ok _ p => .ok p.undo p.state
  | .error e p =>
    match p.undo.revertOn GameState.revert p.state with
    | .ok _ s' => .error e s'
    | .error cause s' => .error (.rollback cause) s'

end MiningGame
