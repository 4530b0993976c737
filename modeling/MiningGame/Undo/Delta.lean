import MiningGame.Character.Basic
import MiningGame.Error
import MiningGame.Region.Record

/-!
# Undo deltas

Every change of the game is recorded as a delta that holds what is needed to take it back, and a
block's deltas are kept in the order of the changes. They are reverted newest first.
-/

namespace MiningGame

inductive UndoDelta where
  | characterCreated (character : CharacterId)
  | miningStatus (character : CharacterId) (previous : MiningStatus)
  | waypoints (character : CharacterId) (previous : List Coord)
  | position (character : CharacterId) (previous : Coord)
  | inventoryCredited (character : CharacterId) (resource : Resource) (amount : UInt64)
  | inventoryDebited (character : CharacterId) (resource : Resource) (amount : UInt64)
  | regionProspected (region : RegionId) (previous : Option RegionRecord) (resource : Resource)
      (amount : UInt64)
  | regionExtracted (region : RegionId) (resource : Resource) (amount : UInt64)
  | lootDropped (position : Coord) (resource : Resource) (amount : UInt64)
  | lootPickedUp (position : Coord) (resource : Resource) (amount : UInt64)
  deriving DecidableEq, Repr

structure BlockUndo where
  height : UInt64
  deltas : List UndoDelta
  deriving DecidableEq, Repr

/-- A new state of something that was changed, an answer, and the deltas that take the change
back, oldest first. -/
structure Recorded (σ α : Type) where
  state : σ
  answer : α
  deltas : List UndoDelta
  deriving DecidableEq

/-- What a delta of a block at some height does when it is reverted. On an error the state it
leaves behind is part of the answer. -/
abbrev Reverter (σ : Type) := UInt64 → UndoDelta → EStateM JournalError σ Unit

namespace BlockUndo

def new (height : UInt64) : BlockUndo := ⟨height, []⟩

def append (undo : BlockUndo) (deltas : List UndoDelta) : BlockUndo :=
  { undo with deltas := undo.deltas ++ deltas }

/-- Reverts all deltas, newest first, up to the first that fails. -/
def revertOn {σ : Type} (revert : Reverter σ) (undo : BlockUndo) : EStateM JournalError σ Unit :=
  undo.deltas.reverse.forM (revert undo.height)

end BlockUndo

end MiningGame
