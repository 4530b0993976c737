import MiningGame.Undo.Delta

/-!
# The undo journal

The journal keeps the undo records of recent blocks by height. Records come in with ascending
heights, only the one of the greatest height can be undone, and old ones are dropped from below.
-/

namespace MiningGame

structure UndoJournal where
  blocks : Table UInt64 BlockUndo
  deriving DecidableEq

namespace UndoJournal

def empty : UndoJournal := ⟨∅⟩

def size (j : UndoJournal) : Nat := j.blocks.size

def isEmpty (j : UndoJournal) : Bool := j.blocks.isEmpty

def latest? (j : UndoJournal) : Option UInt64 := j.blocks.lastKey?

/-- The journal with the record of a block, which must lie above all others. -/
def record (j : UndoJournal) (undo : BlockUndo) : Except JournalError UndoJournal :=
  if j.blocks.contains undo.height then .error (.duplicateHeight undo.height)
  else match j.latest? with
    | none => .ok ⟨j.blocks.insert undo.height undo⟩
    | some latest =>
      if undo.height < latest then .error (.outOfOrder undo.height latest)
      else .ok ⟨j.blocks.insert undo.height undo⟩

/-- Takes the record of a height out of the journal; it must be the greatest. -/
def take (j : UndoJournal) (height : UInt64) : Except JournalError (BlockUndo × UndoJournal) :=
  match j.latest? with
  | none => .error (.undoInconsistency height "journal is empty")
  | some latest =>
    if latest ≠ height then
      .error (.undoInconsistency height ("newest journaled height is " ++ Word.text latest))
    else match j.blocks.get? height with
      | none => .error (.undoInconsistency height "no undo data")
      | some undo => .ok (undo, ⟨j.blocks.erase height⟩)

/-- Undoes the block of a height, which must be the greatest recorded one, and forgets its record.
The record is gone also when one of its deltas cannot be reverted. -/
def undo {σ : Type} (revert : Reverter σ) (height : UInt64) :
    EStateM JournalError (UndoJournal × σ) Unit := fun (j, target) ↦
  match j.take height with
  | .error e => .error e (j, target)
  | .ok (record, rest) =>
    match record.revertOn revert target with
    | .ok _ target' => .ok () (rest, target')
    | .error e target' => .error e (rest, target')

/-- Drops all records below a height and tells how many there were. -/
def prune (j : UndoJournal) (below : UInt64) : Nat × UndoJournal :=
  let kept := j.blocks.filter fun height _ ↦ below ≤ height
  (j.blocks.size - kept.size, ⟨kept⟩)

end UndoJournal

end MiningGame
