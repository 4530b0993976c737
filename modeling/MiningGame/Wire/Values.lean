import MiningGame.Character.Basic
import MiningGame.Region.Record
import MiningGame.Wire.Basic

/-!
# Names, positions and records on the wire
-/

namespace MiningGame

open Wire

instance : Wire CharacterId where
  encode id := encode id.value
  decode j := (decode j).map CharacterId.mk

instance : Wire RegionId where
  encode id := encode id.value
  decode j := (decode j).map RegionId.mk

instance : Wire BlockHash where
  encode hash := encode hash.text
  decode j := (decode j).map BlockHash.mk

instance : Wire Resource where
  encode r := .str r.name
  decode j := do
    let (name, payload) ← j.alternative?
    if Json.isBare payload then Resource.ofName? name else none

/-- The bundle with what a field of an object lists. -/
def Bundle.extendBy (b : Bundle) (field : String × Json) : Option Bundle := do
  return b.insert (← Resource.ofName? field.1) (← field.2.word?)

/-- A bundle is an object with amounts by resource name; of two fields of one name the later
counts. -/
instance : Wire Bundle where
  encode b := .obj (b.entries.map fun e ↦ (e.1.name, encode e.2))
  decode j := j.obj?.bind fun fields ↦ fields.foldlM Bundle.extendBy ∅

instance : Wire Coord where
  encode p := .obj [("x", encode p.x), ("y", encode p.y)]
  decode j := do
    match ← j.slots? ["x", "y"] with
    | [x, y] => return ⟨← x.required, ← y.required⟩
    | _ => none

instance : Wire MiningStatus where
  encode
    | .idle => .str "Idle"
    | .mining region => .alternative "Mining" (encode region)
  decode j := do
    match ← j.alternative? with
    | ("Idle", payload) => if Json.isBare payload then some .idle else none
    | ("Mining", some payload) => return .mining (← decode payload)
    | _ => none

instance : Wire Prospection where
  encode p := .obj [("character", encode p.character), ("height", encode p.height)]
  decode j := do
    match ← j.slots? ["character", "height"] with
    | [character, height] => return ⟨← character.required, ← height.required⟩
    | _ => none

instance : Wire RegionRecord where
  encode r := .obj [
    ("resource", encode r.resource),
    ("remaining", encode r.remaining),
    ("prospection", encode r.prospection)]
  decode j := do
    match ← j.slots? ["resource", "remaining", "prospection"] with
    | [resource, remaining, prospection] =>
      return ⟨← resource.optional, ← remaining.required, ← prospection.required⟩
    | _ => none

end MiningGame
