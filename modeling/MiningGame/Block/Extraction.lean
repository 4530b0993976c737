import MiningGame.Block.Turn

/-!
# Extraction

Once per block every active miner extracts up to the rate from its region, by number, so a
shortfall goes to the last ones. When a deposit runs out, all its miners stop at once.
-/

namespace MiningGame.Turn

/-- Lets one miner extract from its region and answers the units it got. A miner that was stopped
earlier in the same pass gets nothing. -/
def extractOne (rate : UInt64) (id : CharacterId) (region : RegionId) : Turn UInt64 := do
  if !((← state).roster.get? id).any fun c ↦ c.mining = .mining region then return 0
  match ← inDeposits (.extract region rate) with
  | none =>
    inRoster (.stopMining id)
    return 0
  | some (resource, taken) =>
    inRoster (.credit id resource taken)
    if (← state).deposits.remaining region = 0 then
      let _ ← inRoster (.stopRegion region)
    return taken

/-- Lets all active miners extract and answers what each of them got, by number. -/
def extraction (rate : UInt64) : Turn (List (CharacterId × UInt64)) := do
  (← state).roster.activeMiners.mapM fun (id, region) ↦ do
    return (id, ← extractOne rate id region)

end MiningGame.Turn
