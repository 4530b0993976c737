import MiningGame.Coord
import MiningGame.Identifier
import MiningGame.Resource

/-!
# Characters

A character stands somewhere, may have waypoints left to walk, mines at most one region and
carries a bundle of resources.
-/

namespace MiningGame

/-- What a character is doing. There is no step from mining one region to mining another. -/
inductive MiningStatus where
  | idle
  | mining (region : RegionId)
  deriving DecidableEq, Repr

namespace MiningStatus

def region? : MiningStatus → Option RegionId
  | idle => none
  | mining region => some region

def isActive (s : MiningStatus) : Bool := s.region?.isSome

end MiningStatus

structure Character where
  id : CharacterId
  owner : String
  name : String
  position : Coord
  /-- Where it is going, next place first. -/
  waypoints : List Coord
  mining : MiningStatus
  inventory : Bundle
  deriving DecidableEq

namespace Character

def spawn (id : CharacterId) (owner name : String) (position : Coord) : Character where
  id := id
  owner := owner
  name := name
  position := position
  waypoints := []
  mining := .idle
  inventory := ∅

def isMoving (c : Character) : Bool := !c.waypoints.isEmpty

end Character

end MiningGame
