import MiningGame.Table
import MiningGame.Word

/-!
# Edits in place

An edit changes something step by step and may break off, and what it changed before stays changed.
So it depends on the order of its checks and its changes whether an edit that fails leaves a trace.
-/

namespace MiningGame

abbrev Edit (ε σ α : Type) := EStateM ε σ α

namespace Edit

variable {ε ε' σ τ κ α β : Type} [Ranked κ]

/-- The edit of a part of something; its errors are told as those of the whole. -/
def part (get : σ → τ) (set : σ → τ → σ) (cause : ε' → ε) (e : Edit ε' τ β) : Edit ε σ β := fun s ↦
  match e (get s) with
  | .ok b t => .ok b (set s t)
  | .error x t => .error (cause x) (set s t)

/-- Tells whether an edit succeeds. What it changed before it broke off stays changed. -/
def succeeds (e : Edit ε' σ Unit) : Edit ε σ Bool := fun s ↦
  match e s with
  | .ok _ s' => .ok true s'
  | .error _ s' => .ok false s'

/-- The edit of what a table has under a key; it is an error if that is nothing. -/
def existing (k : κ) (absent : ε) (e : Edit ε α Unit) : Edit ε (Table κ α) Unit := fun t ↦
  match t.get? k with
  | none => .error absent t
  | some v =>
    match e v with
    | .ok _ v' => .ok () (t.insert k v')
    | .error x v' => .error x (t.insert k v')

/-- The edit of what a table has under a key. Where that is nothing, something to start from is put
there before, and stays also if the edit fails. -/
def entry (k : κ) (start : α) (e : Edit ε α Unit) : Edit ε (Table κ α) Unit := fun t ↦
  match e ((t.get? k).getD start) with
  | .ok _ v => .ok () (t.insert k v)
  | .error x v => .error x (t.insert k v)

/-- Adds to an amount. -/
def raise (amount : UInt64) (overflow : ε) : Edit ε UInt64 Unit := fun x ↦
  match Word.add? x amount with
  | none => .error overflow x
  | some total => .ok () total

end Edit

end MiningGame
