import MiningGame.State.Basic

/-!
# Snapshots

A snapshot is what the outside sees of the game between two blocks: characters and regions by
number and ground loot by position.
-/

namespace MiningGame

structure MiningView where
  rate : UInt64
  active : Bool
  region : Option RegionId
  deriving DecidableEq

structure CharacterView where
  id : CharacterId
  owner : String
  name : String
  position : Coord
  waypoints : List Coord
  mining : MiningView
  inventory : Bundle
  deriving DecidableEq

structure ResourceView where
  resource : Resource
  amount : UInt64
  deriving DecidableEq

structure RegionView where
  id : RegionId
  prospection : Prospection
  resource : Option ResourceView
  deriving DecidableEq

structure GroundLootView where
  position : Coord
  inventory : Bundle
  deriving DecidableEq

/-- The game after a block. -/
structure GameStateSnapshot where
  height : UInt64
  bestHash : BlockHash
  characters : List CharacterView
  regions : List RegionView
  groundLoot : List GroundLootView
  deriving DecidableEq

namespace GameStateSnapshot

/-- The first character of a number. -/
def character? (s : GameStateSnapshot) (id : CharacterId) : Option CharacterView :=
  s.characters.find? fun c ↦ c.id = id

/-- The first region of a number. -/
def region? (s : GameStateSnapshot) (id : RegionId) : Option RegionView :=
  s.regions.find? fun r ↦ r.id = id

/-- The amount of a resource in all piles, cut off at the largest word. -/
def groundLootTotal (s : GameStateSnapshot) (resource : Resource) : UInt64 :=
  s.groundLoot.foldl (fun total pile ↦ Word.addCapped total (pile.inventory.amount resource)) 0

end GameStateSnapshot

def Character.view (c : Character) (rate : UInt64) : CharacterView where
  id := c.id
  owner := c.owner
  name := c.name
  position := c.position
  waypoints := c.waypoints
  mining := ⟨rate, c.mining.isActive, c.mining.region?⟩
  inventory := c.inventory

def RegionRecord.view (r : RegionRecord) (id : RegionId) : RegionView where
  id := id
  prospection := r.prospection
  resource := r.resource.map fun resource ↦ ⟨resource, r.remaining⟩

def GameState.snapshot (s : GameState) (height : UInt64) (bestHash : BlockHash) (rate : UInt64) :
    GameStateSnapshot where
  height := height
  bestHash := bestHash
  characters := s.roster.toList.map fun c ↦ c.view rate
  regions := s.deposits.regions.entries.map fun (id, r) ↦ r.view id
  groundLoot := s.loot.piles.entries.map fun (position, pile) ↦ ⟨position, pile⟩

end MiningGame
