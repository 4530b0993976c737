import MiningGame.Undo.Recording

/-!
# Ground loot

What lies on the ground, in piles by position. Dropping, picking up and taking back a drop keep
the ground free of empty piles and zero amounts. Every operation is told twice: by its answer,
worked out beside the ground there is, and in place, as blocks carry it out, where what was changed
or pushed before an error stays.
-/

namespace MiningGame

structure GroundLoot where
  piles : Table Coord Bundle
  deriving DecidableEq

namespace GroundLoot

def empty : GroundLoot := ⟨∅⟩

def pileAt (l : GroundLoot) (position : Coord) : Bundle := (l.piles.get? position).getD ∅

def amountAt (l : GroundLoot) (position : Coord) (resource : Resource) : UInt64 :=
  (l.pileAt position).amount resource

/-- The ground with an amount added to a pile. Adding zero lists the resource. -/
def add (l : GroundLoot) (position : Coord) (resource : Resource) (amount : UInt64) :
    Except WorldError GroundLoot :=
  match Word.add? (l.amountAt position resource) amount with
  | none => .error .arithmeticOverflow
  | some total => .ok ⟨l.piles.insert position ((l.pileAt position).insert resource total)⟩

/-- The ground with a pile in the place of the one at a position; an empty one is cleared away. -/
def setPile (l : GroundLoot) (position : Coord) (pile : Bundle) : GroundLoot :=
  ⟨if pile.isEmpty then l.piles.erase position else l.piles.insert position pile⟩

/-- The ground with an amount taken from a pile. -/
def remove (l : GroundLoot) (position : Coord) (resource : Resource) (amount : UInt64) :
    Except WorldError GroundLoot :=
  let available := l.amountAt position resource
  match Word.sub? available amount with
  | none => .error (.insufficientLoot position resource amount available)
  | some left =>
    match l.piles.get? position with
    | none => .ok l
    | some pile =>
      .ok (l.setPile position
        (if left = 0 then pile.erase resource else pile.insert resource left))

def dropAt (l : GroundLoot) (position : Coord) (resource : Resource) (amount : UInt64) :
    Except WorldError (Recorded GroundLoot Unit) :=
  if amount = 0 then .ok ⟨l, (), []⟩
  else do
    let l' ← l.add position resource amount
    return ⟨l', (), [.lootDropped position resource amount]⟩

/-- Picks up to an amount up at a position and answers the units taken. -/
def pickUp (l : GroundLoot) (position : Coord) (resource : Resource) (requested : UInt64) :
    Recorded GroundLoot UInt64 :=
  let taken := min requested (l.amountAt position resource)
  if taken = 0 then ⟨l, 0, []⟩
  else match l.remove position resource taken with
    | .error _ => ⟨l, 0, []⟩
    | .ok l' => ⟨l', taken, [.lootPickedUp position resource taken]⟩

def restoreDropped (l : GroundLoot) (position : Coord) (resource : Resource) (amount : UInt64) :
    Except WorldError GroundLoot :=
  l.remove position resource amount

def restorePickedUp (l : GroundLoot) (position : Coord) (resource : Resource) (amount : UInt64) :
    Except WorldError GroundLoot :=
  l.add position resource amount

/-- `add` in place: the pile is made and the resource listed in it before the sum is checked. -/
def raise (position : Coord) (resource : Resource) (amount : UInt64) :
    Edit WorldError GroundLoot Unit :=
  Edit.part piles (fun _ piles ↦ ⟨piles⟩) (fun x ↦ x) <|
    Edit.entry position ∅ <| Edit.entry resource 0 (Edit.raise amount .arithmeticOverflow)

/-- Clears the pile at a position away if nothing is left of it. -/
def clear (position : Coord) : Edit WorldError GroundLoot Unit := do
  if ((← get).pileAt position).isEmpty then modify fun l ↦ ⟨l.piles.erase position⟩

/-- `remove` in place: an empty pile is cleared away at the end. -/
def lower (position : Coord) (resource : Resource) (amount : UInt64) :
    Edit WorldError GroundLoot Unit := do
  let l ← get
  let available := l.amountAt position resource
  match Word.sub? available amount with
  | none => throw (.insufficientLoot position resource amount available)
  | some left =>
    match l.piles.get? position with
    | none => return
    | some pile =>
      if left = 0 then set (GroundLoot.mk (l.piles.insert position (pile.erase resource)))
      else set (GroundLoot.mk (l.piles.insert position (pile.insert resource left)))
      clear position

def amounts (l : GroundLoot) : List (Resource × UInt64) :=
  l.piles.values.flatMap Table.entries

end GroundLoot

/-! ### Operations in place -/

namespace Recording

/-- `GroundLoot.dropAt` in place: nothing is pushed for a sum that is too large. -/
def dropAt (position : Coord) (resource : Resource) (amount : UInt64) :
    Recording WorldError GroundLoot Unit := do
  if amount = 0 then return
  edit (GroundLoot.raise position resource amount)
  push (.lootDropped position resource amount)

/-- `GroundLoot.pickUp` in place. -/
def pickUp (position : Coord) (resource : Resource) (requested : UInt64) :
    Recording WorldError GroundLoot UInt64 := do
  let taken := min requested ((← edit get).amountAt position resource)
  if taken = 0 then return 0
  if ← edit (Edit.succeeds (GroundLoot.lower position resource taken)) then
    push (.lootPickedUp position resource taken)
    return taken
  else return 0

end Recording

end MiningGame
