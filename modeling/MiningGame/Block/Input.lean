import MiningGame.Move.Basic

/-!
# Blocks and chain updates

What the processor is given: blocks with the characters to create and the moves to carry out, and
announcements of blocks that continue the chain or replace a part of it.
-/

namespace MiningGame

structure CreateCharacter where
  owner : String
  name : String
  position : Coord
  deriving DecidableEq

structure BlockInput where
  height : UInt64
  hash : BlockHash
  parent : BlockHash
  creates : List CreateCharacter
  moves : List (CharacterId × CharacterMove)
  deriving DecidableEq

structure ChainUpdate where
  bestHash : BlockHash
  /-- Whether the blocks replace a part of the chain instead of continuing it. -/
  reorg : Bool
  blocks : List BlockInput
  deriving DecidableEq

/-- The hash of the block that a reorganisation goes back to. -/
def ChainUpdate.ancestor (u : ChainUpdate) : BlockHash :=
  match u.blocks with
  | [] => u.bestHash
  | b :: _ => b.parent

end MiningGame
