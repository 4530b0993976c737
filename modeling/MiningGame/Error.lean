import MiningGame.Coord
import MiningGame.Identifier
import MiningGame.Resource
import MiningGame.Text.Quoted

/-!
# What can go wrong with the tables of the game

Each error says which condition failed and carries the values that its message shows.
-/

namespace MiningGame

inductive RegionMismatch where
  | depositChanged
  | typeDiffers
  deriving DecidableEq, Repr

inductive WorldError where
  | regionNotFound (region : RegionId)
  | alreadyAssigned (region : RegionId) (resource : Resource) (remaining : UInt64)
  | emptyDeposit (region : RegionId)
  /-- Less lies on the ground than is to be taken away. -/
  | insufficientLoot (position : Coord) (resource : Resource) (requested available : UInt64)
  | regionMismatch (region : RegionId) (mismatch : RegionMismatch)
  | invalidRegionSize
  | arithmeticOverflow
  deriving DecidableEq, Repr

inductive MiningRejection where
  | notInRegion
  | noDeposit
  | moving
  | miningElsewhere (region : RegionId)
  deriving DecidableEq, Repr

inductive CharacterError where
  | characterNotFound (character : CharacterId)
  | duplicateName (owner name : String)
  | invalidMiningTarget (character : CharacterId) (region : RegionId) (reason : MiningRejection)
  | insufficientResource (resource : Resource) (requested available : UInt64)
  | notNewest (character : CharacterId)
  | idsExhausted
  /-- The carried amount of a resource would be larger than the largest word. -/
  | inventoryOverflow (resource : Resource)
  deriving DecidableEq, Repr

inductive JournalError where
  | undoInconsistency (height : UInt64) (reason : String)
  | duplicateHeight (height : UInt64)
  | outOfOrder (height latest : UInt64)
  deriving DecidableEq, Repr

def RegionMismatch.message : RegionMismatch → String
  | depositChanged => "deposit changed after prospecting"
  | typeDiffers => "deposit type differs from extracted type"

def WorldError.message : WorldError → String
  | regionNotFound region => "region not found: " ++ region.text
  | alreadyAssigned region resource remaining =>
    "region " ++ region.text ++ " already holds " ++ Word.text remaining ++ " of " ++
      resource.name
  | emptyDeposit region => "cannot assign an empty deposit to region " ++ region.text
  | insufficientLoot position resource requested available =>
    "ground loot at " ++ position.text ++ " holds " ++ Word.text available ++ " of " ++
      resource.name ++ ", need " ++ Word.text requested
  | regionMismatch region mismatch =>
    "region " ++ region.text ++ " does not match undo data: " ++ mismatch.message
  | invalidRegionSize => "region size must be at least 1"
  | arithmeticOverflow => "arithmetic overflow in world calculation"

def MiningRejection.message : MiningRejection → String
  | notInRegion => "not standing in the region"
  | noDeposit => "region has no deposit"
  | moving => "character is moving"
  | miningElsewhere region => "already mining region " ++ region.text

def CharacterError.message : CharacterError → String
  | characterNotFound character => "character not found: " ++ character.text
  | duplicateName owner name =>
    "duplicate character name " ++ Text.quoted name ++ " for owner " ++ Text.quoted owner
  | invalidMiningTarget character region reason =>
    "invalid mining target " ++ region.text ++ " for character " ++ character.text ++ ": " ++
      reason.message
  | insufficientResource resource requested available =>
    "insufficient resource: wanted " ++ Word.text requested ++ " of " ++ resource.name ++
      " but only have " ++ Word.text available
  | notNewest character =>
    "character " ++ character.text ++
      " does not match undo data: not the most recently created character"
  | idsExhausted => "character id space exhausted"
  | inventoryOverflow resource =>
    "arithmetic overflow: inventory quantity of " ++ resource.name ++ " overflow"

def JournalError.message : JournalError → String
  | undoInconsistency height reason =>
    "undo inconsistency at height " ++ Word.text height ++ ": " ++ reason
  | duplicateHeight height => "undo data for height " ++ Word.text height ++ " already recorded"
  | outOfOrder height latest =>
    "undo data for height " ++ Word.text height ++ " recorded after height " ++ Word.text latest

end MiningGame
