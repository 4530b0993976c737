import MiningGame.Character.Roster
import MiningGame.Region.Deposits
import MiningGame.Region.Grid

/-!
# Starting and stopping to mine

An idle character that stands still in a region with something left can start to mine it. Asking
again for the same region changes nothing; to mine another region a character must stop first.
-/

namespace MiningGame

namespace Roster

/-- Why a character may not start to mine a region; nothing for one that may or already does. The
checks run in the order region, deposit, waypoints, present occupation. -/
def rejection? (grid : Grid) (deposits : Deposits) (c : Character) (region : RegionId) :
    Option MiningRejection :=
  if grid.regionAt c.position ≠ region then some .notInRegion
  else if !(deposits.record? region).any RegionRecord.isMineable then some .noDeposit
  else if c.isMoving then some .moving
  else match c.mining with
    | .idle => none
    | .mining current => if current = region then none else some (.miningElsewhere current)

def startMining (r : Roster) (grid : Grid) (deposits : Deposits) (id : CharacterId)
    (region : RegionId) : Except CharacterError (Recorded Roster Unit) := do
  let c ← r.find id
  match rejection? grid deposits c region with
  | some reason => throw (.invalidMiningTarget id region reason)
  | none => r.setMining id (.mining region)

/-- Stops mining; an idle character stays idle. -/
def stopMining (r : Roster) (id : CharacterId) : Except CharacterError (Recorded Roster Unit) :=
  r.setMining id .idle

def stopAll (r : Roster) : List CharacterId → Except CharacterError (Recorded Roster Unit)
  | [] => .ok ⟨r, (), []⟩
  | id :: rest => do
    let one ← r.stopMining id
    let others ← one.state.stopAll rest
    return ⟨others.state, (), one.deltas ++ others.deltas⟩

def stopRegion (r : Roster) (region : RegionId) :
    Except CharacterError (Recorded Roster (List CharacterId)) := do
  let miners := r.minersOf region
  let stopped ← r.stopAll miners
  return ⟨stopped.state, miners, stopped.deltas⟩

end Roster

/-! ### Operations in place -/

namespace Recording

/-- `Roster.startMining` in place. -/
def startMining (grid : Grid) (deposits : Deposits) (id : CharacterId) (region : RegionId) :
    Recording CharacterError Roster Unit := do
  let c ← find id
  match Roster.rejection? grid deposits c region with
  | some reason => throw (.invalidMiningTarget id region reason)
  | none => setMining id (.mining region)

def stopMining (id : CharacterId) : Recording CharacterError Roster Unit := setMining id .idle

/-- `Roster.stopRegion` in place: whoever was stopped before an error stays stopped. -/
def stopRegion (region : RegionId) : Recording CharacterError Roster (List CharacterId) := do
  let miners := (← edit get).minersOf region
  miners.forM stopMining
  return miners

end Recording

end MiningGame
