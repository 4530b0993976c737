import MiningGame.Edit
import MiningGame.Undo.Delta

/-!
# Recording edits

The operations of a block change a table in place and push the delta of a change to the record of
the block. One that breaks off leaves behind what it changed and pushed before.
-/

namespace MiningGame

/-- An edit of something and of the record of its changes. -/
abbrev Recording (ε σ α : Type) := Edit ε (σ × BlockUndo) α

namespace Recording

variable {ε σ α : Type}

/-- An edit that pushes nothing. -/
def edit (e : Edit ε σ α) : Recording ε σ α :=
  Edit.part Prod.fst (fun p s ↦ (s, p.2)) (fun x ↦ x) e

def push (δ : UndoDelta) : Recording ε σ Unit := modify fun (s, undo) ↦ (s, undo.append [δ])

/-- The edit that a recording is for a caller who throws the record away, and the answer. -/
def alone (e : Recording ε σ α) : Edit ε σ Unit := fun s ↦
  match e (s, .new 0) with
  | .ok _ p => .ok () p.1
  | .error x p => .error x p.1

end Recording

end MiningGame
