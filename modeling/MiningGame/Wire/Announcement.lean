import MiningGame.Block.Input
import MiningGame.Move.Document
import MiningGame.Wire.Block

/-!
# Announcements

Chain updates as they arrive: like the typed ones, but with moves as documents of any content, and
with defaults for what a plain continuation need not say. Moves without any directive are dropped.
-/

namespace MiningGame

open Wire

/-- The room for containers in a move document inside a text of announcements: there are six
containers around it. -/
def moveDocumentRoom : Nat := Json.documentDepth - 6

structure RawMove where
  character : CharacterId
  document : Json

structure RawBlock where
  height : UInt64
  hash : BlockHash
  parent : BlockHash
  creates : List CreateCharacter
  moves : List RawMove

structure Announcement where
  bestHash : BlockHash
  reorg : Bool
  blocks : List RawBlock

/-- A JSON value that is read only as part of an announcement. -/
instance : Wire RawMove where
  encode m := .obj [("character", encode m.character), ("move", m.document)]
  decode j := do
    match ← j.slots? ["character", "move"] with
    | [character, .given document] =>
      return ⟨← character.required, ← document.document? moveDocumentRoom⟩
    | _ => none

instance : Wire RawBlock where
  encode b := .obj [
    ("height", encode b.height),
    ("hash", encode b.hash),
    ("parent", encode b.parent),
    ("creates", encode b.creates),
    ("moves", encode b.moves)]
  decode j := do
    match ← j.slots? ["height", "hash", "parent", "creates", "moves"] with
    | [height, hash, parent, creates, moves] =>
      return ⟨← height.required, ← hash.required, ← parent.required, ← creates.orElse [],
        ← moves.orElse []⟩
    | _ => none

instance : Wire Announcement where
  encode a := .obj [
    ("best_hash", encode a.bestHash),
    ("reorg", encode a.reorg),
    ("blocks", encode a.blocks)]
  decode j := do
    match ← j.slots? ["best_hash", "reorg", "blocks"] with
    | [bestHash, reorg, blocks] =>
      return ⟨← bestHash.required, ← reorg.orElse false, ← blocks.orElse []⟩
    | _ => none

def RawBlock.toInput (b : RawBlock) : BlockInput where
  height := b.height
  hash := b.hash
  parent := b.parent
  creates := b.creates
  moves := (b.moves.map fun m ↦ (m.character, CharacterMove.ofDocument m.document)).filter
    fun m ↦ !m.2.isEmpty

def Announcement.toUpdate (a : Announcement) : ChainUpdate where
  bestHash := a.bestHash
  reorg := a.reorg
  blocks := a.blocks.map RawBlock.toInput

end MiningGame
