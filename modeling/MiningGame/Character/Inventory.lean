import MiningGame.Edit
import MiningGame.Error

/-!
# What characters carry

Adding to and taking from an inventory. Both keep inventories free of zero amounts, and both can be
done in place.
-/

namespace MiningGame.Inventory

def add (inventory : Bundle) (resource : Resource) (amount : UInt64) :
    Except CharacterError Bundle :=
  if amount = 0 then .ok inventory
  else match Word.add? (inventory.amount resource) amount with
    | none => .error (.inventoryOverflow resource)
    | some total => .ok (inventory.insert resource total)

def remove (inventory : Bundle) (resource : Resource) (amount : UInt64) :
    Except CharacterError Bundle :=
  let carried := inventory.amount resource
  match Word.sub? carried amount with
  | none => .error (.insufficientResource resource amount carried)
  | some left =>
    .ok (if left = 0 then inventory.erase resource else inventory.insert resource left)

/-- `add` in place: the resource is listed before the sum is checked. -/
def raise (resource : Resource) (amount : UInt64) : Edit CharacterError Bundle Unit :=
  if amount = 0 then pure ()
  else Edit.entry resource 0 (Edit.raise amount (.inventoryOverflow resource))

/-- `remove` in place. -/
def lower (resource : Resource) (amount : UInt64) : Edit CharacterError Bundle Unit := do
  let inventory ← get
  let carried := inventory.amount resource
  match Word.sub? carried amount with
  | none => throw (.insufficientResource resource amount carried)
  | some left =>
    if left = 0 then set (inventory.erase resource)
    else set (inventory.insert resource left)

end MiningGame.Inventory
