import MiningGame.Block.Turn

/-!
# Walking

Once per block every character may take a step, as a movement policy decides. A character that
changes its position stops mining.
-/

namespace MiningGame

structure Step where
  position : Coord
  waypoints : List Coord
  deriving DecidableEq

/-- The step a character takes in a block, if any. -/
abbrev Movement := Character → Option Step

/-- The policy by which characters walk to their next waypoint in one block. -/
def Movement.walk : Movement := fun c ↦
  match c.waypoints with
  | [] => none
  | next :: rest => some ⟨next, rest⟩

namespace Turn

def step (id : CharacterId) (s : Step) : Turn Unit := do
  inRoster (.setWaypoints id s.waypoints)
  let c ← character id
  if c.position ≠ s.position then
    inRoster (.stopMining id)
    inRoster (.setPosition id s.position)

def walk (movement : Movement) (id : CharacterId) : Turn Unit := do
  match ((← state).roster.get? id).bind movement with
  | none => return
  | some s => step id s

def movement (policy : Movement) : Turn Unit := do
  (← state).roster.ids.forM (walk policy)

end Turn

end MiningGame
