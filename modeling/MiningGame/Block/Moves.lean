import MiningGame.Block.Turn
import MiningGame.Region.Prospecting

/-!
# Carrying out moves

Every character that has directives gets them carried out, in the order of the character numbers:
first waypoints, then mining, picking up, dropping and prospecting. A directive that cannot be
honoured is skipped; only an overflow makes the block invalid.
-/

namespace MiningGame

namespace Recording

/-- Starts to mine; a target that may not be mined is passed over. -/
def startIfAllowed (grid : Grid) (deposits : Deposits) (id : CharacterId) (region : RegionId) :
    Recording CharacterError Roster Unit :=
  tryCatch (startMining grid deposits id region) fun
    | .invalidMiningTarget .. => pure ()
    | e => throw e

/-- Assigns a find; an empty one, or one in a region with a deposit, is passed over. -/
def assignIfVacant (region : RegionId) (find : Find) (prospection : Prospection) :
    Recording WorldError Deposits Unit :=
  tryCatch (assign region find.resource find.amount prospection) fun
    | .alreadyAssigned .. => pure ()
    | .emptyDeposit .. => pure ()
    | e => throw e

end Recording

namespace Turn

/-- Replaces the waypoints of a character, which stops it from mining. -/
def travel (id : CharacterId) (places : List Coord) : Turn Unit := do
  inRoster (.setWaypoints id places)
  inRoster (.stopMining id)

def mine (id : CharacterId) : Turn Unit := do
  let s ← state
  let c ← character id
  inRoster (.startIfAllowed s.grid s.deposits id (s.grid.regionAt c.position))

/-- Lets a character pick up as much of a resource as lies underfoot, at most an amount. -/
def pickUp (id : CharacterId) (resource : Resource) (requested : UInt64) : Turn Unit := do
  let c ← character id
  let taken ← inLoot (.pickUp c.position resource requested)
  inRoster (.credit id resource taken)

def drop (id : CharacterId) (resource : Resource) (requested : UInt64) : Turn Unit := do
  let c ← character id
  let given := min requested (c.inventory.amount resource)
  inRoster (.debit id resource given)
  inLoot (.dropAt c.position resource given)

/-- Gives a region the deposit that was found in it. An empty find is no deposit. -/
def settle (region : RegionId) (find : Find) (prospection : Prospection) : Turn Unit :=
  inDeposits (.assignIfVacant region find prospection)

/-- Lets a character prospect the region it stands in, unless it is moving or the region has a
deposit. -/
def prospect (prospector : Prospector) (id : CharacterId) : Turn Unit := do
  let s ← state
  let c ← character id
  if c.isMoving then return
  let region := s.grid.regionAt c.position
  if (s.deposits.resource? region).isSome then return
  match prospector region (← height) with
  | none => return
  | some find => settle region find ⟨id, ← height⟩

def directive (prospector : Prospector) (id : CharacterId) : Directive → Turn Unit
  | .waypoints places => travel id places
  | .mine => mine id
  | .pickup items => items.entries.forM fun (resource, amount) ↦ pickUp id resource amount
  | .drop items => items.entries.forM fun (resource, amount) ↦ drop id resource amount
  | .prospect => prospect prospector id

/-- Carries out the move of a character; moves of unknown characters are ignored. -/
def move (prospector : Prospector) (id : CharacterId) (m : CharacterMove) : Turn Unit := do
  if ((← state).roster.get? id).isSome then
    m.resolve.directives.forM (directive prospector id)

def moves (prospector : Prospector) (all : List (CharacterId × CharacterMove)) : Turn Unit :=
  (CharacterMove.merge all).entries.forM fun (id, m) ↦ move prospector id m

end Turn

end MiningGame
