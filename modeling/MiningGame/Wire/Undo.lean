import MiningGame.Undo.Delta
import MiningGame.Wire.Values

/-!
# Undo records on the wire

What belongs to a delta is a record. A text may write it as an array too, a document may not.
-/

namespace MiningGame

open Wire

namespace UndoDelta

/-- A delta about something that moved an amount of a resource. -/
def encodeTransfer {α : Type} [Wire α] (name subject : String) (a : α) (resource : Resource)
    (amount : UInt64) : Json :=
  .alternative name (.obj [
    (subject, encode a), ("resource", encode resource), ("amount", encode amount)])

def decodeTransfer {α : Type} [Wire α] (subject : String) (j : Json) :
    Option (α × Resource × UInt64) := do
  match ← j.slots? [subject, "resource", "amount"] with
  | [a, resource, amount] => return (← a.required, ← resource.required, ← amount.required)
  | _ => none

/-- Reads what belongs to a delta that keeps a previous value of a character. -/
def decodeChange {α : Type} [Wire α] (j : Json) : Option (CharacterId × α) := do
  match ← j.slots? ["character", "previous"] with
  | [character, previous] => return (← character.required, ← previous.required)
  | _ => none

def encodeChange {α : Type} [Wire α] (name : String) (character : CharacterId) (previous : α) :
    Json :=
  .alternative name (.obj [("character", encode character), ("previous", encode previous)])

def decodeCreated (j : Json) : Option CharacterId := do
  match ← j.slots? ["character"] with
  | [character] => character.required
  | _ => none

def decodeProspected (j : Json) : Option UndoDelta := do
  match ← j.slots? ["region", "previous", "resource", "amount"] with
  | [region, previous, resource, amount] =>
    return .regionProspected (← region.required) (← previous.optional) (← resource.required)
      (← amount.required)
  | _ => none

def toJson : UndoDelta → Json
  | characterCreated id => .alternative "CharacterCreated" (.obj [("character", encode id)])
  | miningStatus id previous => encodeChange "MiningStatus" id previous
  | waypoints id previous => encodeChange "Waypoints" id previous
  | position id previous => encodeChange "Position" id previous
  | inventoryCredited id r n => encodeTransfer "InventoryCredited" "character" id r n
  | inventoryDebited id r n => encodeTransfer "InventoryDebited" "character" id r n
  | regionProspected region previous r n =>
    .alternative "RegionProspected" (.obj [
      ("region", encode region),
      ("previous", encode previous),
      ("resource", encode r),
      ("amount", encode n)])
  | regionExtracted region r n => encodeTransfer "RegionExtracted" "region" region r n
  | lootDropped place r n => encodeTransfer "LootDropped" "position" place r n
  | lootPickedUp place r n => encodeTransfer "LootPickedUp" "position" place r n

def ofAlternative? (name : String) (j : Json) : Option UndoDelta :=
  match name with
  | "CharacterCreated" => (decodeCreated j).map characterCreated
  | "MiningStatus" => (decodeChange j).map fun (id, previous) ↦ miningStatus id previous
  | "Waypoints" => (decodeChange j).map fun (id, previous) ↦ waypoints id previous
  | "Position" => (decodeChange j).map fun (id, previous) ↦ position id previous
  | "InventoryCredited" =>
    (decodeTransfer "character" j).map fun (id, r, n) ↦ inventoryCredited id r n
  | "InventoryDebited" =>
    (decodeTransfer "character" j).map fun (id, r, n) ↦ inventoryDebited id r n
  | "RegionProspected" => decodeProspected j
  | "RegionExtracted" =>
    (decodeTransfer "region" j).map fun (region, r, n) ↦ regionExtracted region r n
  | "LootDropped" => (decodeTransfer "position" j).map fun (place, r, n) ↦ lootDropped place r n
  | "LootPickedUp" =>
    (decodeTransfer "position" j).map fun (place, r, n) ↦ lootPickedUp place r n
  | _ => none

end UndoDelta

instance : Wire UndoDelta where
  encode := UndoDelta.toJson
  decode j := do
    let (name, payload) ← j.alternative?
    UndoDelta.ofAlternative? name (← payload)

instance : Wire BlockUndo where
  encode u := .obj [("height", encode u.height), ("deltas", encode u.deltas)]
  decode j := do
    match ← j.slots? ["height", "deltas"] with
    | [height, deltas] => return ⟨← height.required, ← deltas.required⟩
    | _ => none

def UndoDelta.ofDocument? (document : Json) : Option UndoDelta :=
  match document with
  | .obj [(_, .arr _)] => none
  | j => decode j

def BlockUndo.ofDocument? (document : Json) : Option BlockUndo := do
  match ← document.slots? ["height", "deltas"] with
  | [height, .given deltas] =>
    return ⟨← height.required, ← (← deltas.arr?).mapM UndoDelta.ofDocument?⟩
  | _ => none

end MiningGame
