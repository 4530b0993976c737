import MiningGame.State.Snapshot
import MiningGame.Wire.Values

/-!
# Snapshots on the wire

A region that is not mined and a deposit that does not exist are left out.
-/

namespace MiningGame

open Wire

/-- A field that is left out when there is no value. -/
def Wire.encodeField? {α : Type} [Wire α] (name : String) : Option α → List (String × Json)
  | none => []
  | some a => [(name, encode a)]

instance : Wire MiningView where
  encode v := .obj (
    [("rate", encode v.rate), ("active", encode v.active)] ++ encodeField? "region" v.region)
  decode j := do
    match ← j.slots? ["rate", "active", "region"] with
    | [rate, active, region] => return ⟨← rate.required, ← active.required, ← region.optional⟩
    | _ => none

instance : Wire CharacterView where
  encode v := .obj [
    ("id", encode v.id),
    ("owner", encode v.owner),
    ("name", encode v.name),
    ("position", encode v.position),
    ("waypoints", encode v.waypoints),
    ("mining", encode v.mining),
    ("inventory", encode v.inventory)]
  decode j := do
    match ← j.slots? ["id", "owner", "name", "position", "waypoints", "mining", "inventory"] with
    | [id, owner, name, position, waypoints, mining, inventory] =>
      return ⟨← id.required, ← owner.required, ← name.required, ← position.required,
        ← waypoints.required, ← mining.required, ← inventory.required⟩
    | _ => none

instance : Wire ResourceView where
  encode v := .obj [("type", encode v.resource), ("amount", encode v.amount)]
  decode j := do
    match ← j.slots? ["type", "amount"] with
    | [resource, amount] => return ⟨← resource.required, ← amount.required⟩
    | _ => none

instance : Wire RegionView where
  encode v := .obj (
    [("id", encode v.id), ("prospection", encode v.prospection)] ++
      encodeField? "resource" v.resource)
  decode j := do
    match ← j.slots? ["id", "prospection", "resource"] with
    | [id, prospection, resource] =>
      return ⟨← id.required, ← prospection.required, ← resource.optional⟩
    | _ => none

instance : Wire GroundLootView where
  encode v := .obj [("position", encode v.position), ("inventory", encode v.inventory)]
  decode j := do
    match ← j.slots? ["position", "inventory"] with
    | [position, inventory] => return ⟨← position.required, ← inventory.required⟩
    | _ => none

instance : Wire GameStateSnapshot where
  encode s := .obj [
    ("height", encode s.height),
    ("best_hash", encode s.bestHash),
    ("characters", encode s.characters),
    ("regions", encode s.regions),
    ("ground_loot", encode s.groundLoot)]
  decode j := do
    match ← j.slots? ["height", "best_hash", "characters", "regions", "ground_loot"] with
    | [height, bestHash, characters, regions, groundLoot] =>
      return ⟨← height.required, ← bestHash.required, ← characters.required,
        ← regions.required, ← groundLoot.required⟩
    | _ => none

end MiningGame
