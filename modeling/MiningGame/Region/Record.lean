import MiningGame.Identifier
import MiningGame.Resource

/-!
# Region records

A region gets a record when it is first prospected. The record names its deposit while there is
one, and always its latest prospection.
-/

namespace MiningGame

structure Prospection where
  character : CharacterId
  height : UInt64
  deriving DecidableEq, Repr

/-- What is known of a prospected region. -/
structure RegionRecord where
  resource : Option Resource
  remaining : UInt64
  /-- The latest prospection. -/
  prospection : Prospection
  deriving DecidableEq, Repr

namespace RegionRecord

def isMineable (r : RegionRecord) : Bool := r.resource.isSome && 0 < r.remaining

def deposit? (r : RegionRecord) : Option (Resource × UInt64) :=
  r.resource.map fun resource ↦ (resource, r.remaining)

/-- The record after units were taken from its deposit; an empty deposit loses its type. -/
def without (r : RegionRecord) (taken : UInt64) : RegionRecord :=
  let left := r.remaining - taken
  { r with remaining := left, resource := if left = 0 then none else r.resource }

end RegionRecord

end MiningGame
