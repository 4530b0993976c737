import MiningGame.Character.Inventory
import MiningGame.Undo.Recording

/-!
# The roster

All characters by number, with the number that the next one gets. Setters record a delta only when
something changes; restoring operations take one delta back. Every operation is told twice: by its
answer, worked out beside the roster there is, and in place, as blocks carry it out, where what was
changed or pushed before an error stays.
-/

namespace MiningGame

/-- A part of a character that is replaced as a whole, with the delta that keeps its old value.
What is carried is none: units only move by amounts. -/
structure CharacterPart (α : Type) where
  get : Character → α
  set : Character → α → Character
  delta : CharacterId → α → UndoDelta
  set_get : ∀ c x, set (set c x) (get c) = c := by intros; rfl
  id_set : ∀ c x, (set c x).id = c.id := by intros; rfl
  inventory_set : ∀ c x, (set c x).inventory = c.inventory := by intros; rfl

namespace CharacterPart

def mining : CharacterPart MiningStatus where
  get := Character.mining
  set c status := { c with mining := status }
  delta := .miningStatus

def waypoints : CharacterPart (List Coord) where
  get := Character.waypoints
  set c places := { c with waypoints := places }
  delta := .waypoints

def position : CharacterPart Coord where
  get := Character.position
  set c place := { c with position := place }
  delta := .position

end CharacterPart

structure Roster where
  characters : Table CharacterId Character
  nextId : CharacterId
  deriving DecidableEq

namespace Roster

def empty : Roster := ⟨∅, .first⟩

def get? (r : Roster) (id : CharacterId) : Option Character := r.characters.get? id

def toList (r : Roster) : List Character := r.characters.values

def ids (r : Roster) : List CharacterId := r.characters.keys

def size (r : Roster) : Nat := r.characters.size

def isEmpty (r : Roster) : Bool := r.characters.isEmpty

def minersOf (r : Roster) (region : RegionId) : List CharacterId :=
  (r.toList.filter fun c ↦ c.mining = .mining region).map (·.id)

def activeMiners (r : Roster) : List (CharacterId × RegionId) :=
  r.toList.filterMap fun c ↦ c.mining.region?.map fun region ↦ (c.id, region)

def find (r : Roster) (id : CharacterId) : Except CharacterError Character :=
  match r.get? id with
  | none => .error (.characterNotFound id)
  | some c => .ok c

def store (r : Roster) (id : CharacterId) (c : Character) : Roster :=
  { r with characters := r.characters.insert id c }

/-- Creates a character with the next number; its name must be new among those of its owner. -/
def create (r : Roster) (owner name : String) (position : Coord) :
    Except CharacterError (Recorded Roster CharacterId) :=
  if r.toList.any fun c ↦ c.owner == owner && c.name == name then
    .error (.duplicateName owner name)
  else match r.nextId.next? with
    | none => .error .idsExhausted
    | some next =>
      .ok {
        state := {
          characters := r.characters.insert r.nextId (.spawn r.nextId owner name position)
          nextId := next }
        answer := r.nextId
        deltas := [.characterCreated r.nextId] }

/-- Replaces a part of a character; nothing happens if it has the value already. -/
def replace {α : Type} [DecidableEq α] (r : Roster) (part : CharacterPart α) (id : CharacterId)
    (value : α) : Except CharacterError (Recorded Roster Unit) := do
  let c ← r.find id
  if part.get c = value then
    return ⟨r, (), []⟩
  else
    return ⟨r.store id (part.set c value), (), [part.delta id (part.get c)]⟩

def setMining (r : Roster) (id : CharacterId) (status : MiningStatus) :
    Except CharacterError (Recorded Roster Unit) :=
  r.replace .mining id status

def setWaypoints (r : Roster) (id : CharacterId) (waypoints : List Coord) :
    Except CharacterError (Recorded Roster Unit) :=
  r.replace .waypoints id waypoints

def setPosition (r : Roster) (id : CharacterId) (position : Coord) :
    Except CharacterError (Recorded Roster Unit) :=
  r.replace .position id position

/-- Gives a character an amount of a resource. Nothing happens for a zero amount, whatever the
number. -/
def credit (r : Roster) (id : CharacterId) (resource : Resource) (amount : UInt64) :
    Except CharacterError (Recorded Roster Unit) :=
  if amount = 0 then return ⟨r, (), []⟩
  else do
    let c ← r.find id
    let inventory ← Inventory.add c.inventory resource amount
    return ⟨r.store id { c with inventory := inventory }, (),
      [.inventoryCredited id resource amount]⟩

/-- Takes an amount of a resource from a character. Nothing happens for a zero amount, whatever
the number. -/
def debit (r : Roster) (id : CharacterId) (resource : Resource) (amount : UInt64) :
    Except CharacterError (Recorded Roster Unit) :=
  if amount = 0 then return ⟨r, (), []⟩
  else do
    let c ← r.find id
    let inventory ← Inventory.remove c.inventory resource amount
    return ⟨r.store id { c with inventory := inventory }, (),
      [.inventoryDebited id resource amount]⟩

/-- Takes back a creation, which must be the latest; its number is free again. -/
def restoreCreated (r : Roster) (id : CharacterId) : Except CharacterError Roster :=
  if id.next? ≠ some r.nextId then .error (.notNewest id)
  else do
    let _ ← r.find id
    return ⟨r.characters.erase id, id⟩

def putBack {α : Type} (r : Roster) (part : CharacterPart α) (id : CharacterId) (previous : α) :
    Except CharacterError Roster := do
  let c ← r.find id
  return r.store id (part.set c previous)

def restoreMining (r : Roster) (id : CharacterId) (previous : MiningStatus) :
    Except CharacterError Roster :=
  r.putBack .mining id previous

def restoreWaypoints (r : Roster) (id : CharacterId) (previous : List Coord) :
    Except CharacterError Roster :=
  r.putBack .waypoints id previous

def restorePosition (r : Roster) (id : CharacterId) (previous : Coord) :
    Except CharacterError Roster :=
  r.putBack .position id previous

def restoreCredited (r : Roster) (id : CharacterId) (resource : Resource) (amount : UInt64) :
    Except CharacterError Roster := do
  let c ← r.find id
  let inventory ← Inventory.remove c.inventory resource amount
  return r.store id { c with inventory := inventory }

def restoreDebited (r : Roster) (id : CharacterId) (resource : Resource) (amount : UInt64) :
    Except CharacterError Roster := do
  let c ← r.find id
  let inventory ← Inventory.add c.inventory resource amount
  return r.store id { c with inventory := inventory }

/-! ### Taking back in place -/

/-- `restoreCreated` in place. -/
def uncreate (id : CharacterId) : Edit CharacterError Roster Unit := do
  let r ← get
  if id.next? ≠ some r.nextId then throw (.notNewest id)
  set { r with characters := r.characters.erase id }
  if (r.get? id).isNone then throw (.characterNotFound id)
  modify fun r ↦ { r with nextId := id }

/-- The edit of a character. -/
def edit (id : CharacterId) (e : Edit CharacterError Character Unit) :
    Edit CharacterError Roster Unit :=
  Edit.part characters (fun r characters ↦ { r with characters := characters }) (fun x ↦ x)
    (Edit.existing id (.characterNotFound id) e)

/-- `putBack` in place. -/
def setBack {α : Type} (part : CharacterPart α) (id : CharacterId) (previous : α) :
    Edit CharacterError Roster Unit :=
  edit id (modify fun c ↦ part.set c previous)

def editInventory (id : CharacterId) (e : Edit CharacterError Bundle Unit) :
    Edit CharacterError Roster Unit :=
  edit id (Edit.part Character.inventory (fun c inventory ↦ { c with inventory := inventory })
    (fun x ↦ x) e)

/-- `restoreCredited` in place. -/
def uncredit (id : CharacterId) (resource : Resource) (amount : UInt64) :
    Edit CharacterError Roster Unit :=
  editInventory id (Inventory.lower resource amount)

/-- `restoreDebited` in place. -/
def undebit (id : CharacterId) (resource : Resource) (amount : UInt64) :
    Edit CharacterError Roster Unit :=
  editInventory id (Inventory.raise resource amount)

def carriedAmounts (r : Roster) : List (Resource × UInt64) :=
  r.toList.flatMap fun c ↦ c.inventory.entries

end Roster

/-! ### Operations in place -/

namespace Recording

/-- `Roster.create` in place: the delta is pushed before the character is there. -/
def create (owner name : String) (position : Coord) :
    Recording CharacterError Roster CharacterId := do
  let r ← edit get
  if r.toList.any fun c ↦ c.owner == owner && c.name == name then throw (.duplicateName owner name)
  match r.nextId.next? with
  | none => throw .idsExhausted
  | some next =>
    push (.characterCreated r.nextId)
    edit (modify fun r' ↦ { r' with
      characters := r'.characters.insert r.nextId (.spawn r.nextId owner name position) })
    edit (modify fun r' ↦ { r' with nextId := next })
    return r.nextId

def find (id : CharacterId) : Recording CharacterError Roster Character := do
  match (← edit get).get? id with
  | none => throw (.characterNotFound id)
  | some c => return c

/-- `Roster.replace` in place. -/
def replace {α : Type} [DecidableEq α] (part : CharacterPart α) (id : CharacterId) (value : α) :
    Recording CharacterError Roster Unit := do
  let c ← find id
  if part.get c = value then return
  push (part.delta id (part.get c))
  edit (Roster.edit id (modify fun c ↦ part.set c value))

def setMining (id : CharacterId) (status : MiningStatus) : Recording CharacterError Roster Unit :=
  replace .mining id status

/-- `Roster.setWaypoints` in place. Here the delta comes after the change. -/
def setWaypoints (id : CharacterId) (waypoints : List Coord) :
    Recording CharacterError Roster Unit := do
  let c ← find id
  if c.waypoints = waypoints then return
  edit (Roster.edit id (modify fun c ↦ { c with waypoints := waypoints }))
  push (.waypoints id c.waypoints)

def setPosition (id : CharacterId) (position : Coord) : Recording CharacterError Roster Unit :=
  replace .position id position

/-- `Roster.credit` in place: nothing is pushed for a sum that is too large. -/
def credit (id : CharacterId) (resource : Resource) (amount : UInt64) :
    Recording CharacterError Roster Unit := do
  if amount = 0 then return
  edit (Roster.editInventory id (Inventory.raise resource amount))
  push (.inventoryCredited id resource amount)

/-- `Roster.debit` in place. -/
def debit (id : CharacterId) (resource : Resource) (amount : UInt64) :
    Recording CharacterError Roster Unit := do
  if amount = 0 then return
  edit (Roster.editInventory id (Inventory.lower resource amount))
  push (.inventoryDebited id resource amount)

end Recording

end MiningGame
