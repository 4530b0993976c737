import MiningGame.Undo.Recording

/-!
# Deposits

The records of all prospected regions, with the sum of everything that prospecting ever found.
Every operation is told twice: by its answer, worked out beside the deposits there are, and in
place, as blocks carry it out, where what was changed or pushed before an error stays.
-/

namespace MiningGame

structure Deposits where
  regions : Table RegionId RegionRecord
  prospected : Bundle
  deriving DecidableEq

namespace Deposits

def empty : Deposits := ⟨∅, ∅⟩

def record? (d : Deposits) (region : RegionId) : Option RegionRecord := d.regions.get? region

/-- The deposit of a region with the units left in it. -/
def resource? (d : Deposits) (region : RegionId) : Option (Resource × UInt64) :=
  (d.record? region).bind RegionRecord.deposit?

def remaining (d : Deposits) (region : RegionId) : UInt64 :=
  ((d.resource? region).map (·.2)).getD 0

def assign (d : Deposits) (region : RegionId) (resource : Resource) (amount : UInt64)
    (prospection : Prospection) : Except WorldError (Recorded Deposits Unit) :=
  match d.resource? region with
  | some (present, remaining) => .error (.alreadyAssigned region present remaining)
  | none =>
    if amount = 0 then .error (.emptyDeposit region)
    else match Word.add? (d.prospected.amount resource) amount with
      | none => .error .arithmeticOverflow
      | some total =>
        .ok {
          state := {
            regions := d.regions.insert region ⟨some resource, amount, prospection⟩
            prospected := d.prospected.insert resource total }
          answer := ()
          deltas := [.regionProspected region (d.record? region) resource amount] }

/-- Extracts up to an amount from a region and answers the type and the units taken, or nothing
for a region without deposit. -/
def extract (d : Deposits) (region : RegionId) (amount : UInt64) :
    Recorded Deposits (Option (Resource × UInt64)) :=
  match d.record? region with
  | none => ⟨d, none, []⟩
  | some record =>
    match record.resource with
    | none => ⟨d, none, []⟩
    | some resource =>
      let taken := min amount record.remaining
      if taken = 0 then ⟨d, some (resource, 0), []⟩
      else {
        state := { d with regions := d.regions.insert region (record.without taken) }
        answer := some (resource, taken)
        deltas := [.regionExtracted region resource taken] }

/-- Takes back an assignment: the region must still hold exactly what it was given. -/
def restoreProspected (d : Deposits) (region : RegionId) (previous : Option RegionRecord)
    (resource : Resource) (amount : UInt64) : Except WorldError Deposits :=
  match d.record? region with
  | none => .error (.regionNotFound region)
  | some current =>
    if current.resource ≠ some resource ∨ current.remaining ≠ amount then
      .error (.regionMismatch region .depositChanged)
    else match Word.sub? (d.prospected.amount resource) amount with
      | none => .error .arithmeticOverflow
      | some total =>
        .ok {
          regions := match previous with
            | some record => d.regions.insert region record
            | none => d.regions.erase region
          prospected :=
            if total = 0 then d.prospected.erase resource
            else d.prospected.insert resource total }

/-- Takes back an extraction: the region must hold the same resource or nothing. -/
def restoreExtracted (d : Deposits) (region : RegionId) (resource : Resource) (amount : UInt64) :
    Except WorldError Deposits :=
  match d.record? region with
  | none => .error (.regionNotFound region)
  | some record =>
    if record.resource.any (· ≠ resource) then
      .error (.regionMismatch region .typeDiffers)
    else match Word.add? record.remaining amount with
      | none => .error .arithmeticOverflow
      | some left =>
        .ok { d with
          regions := d.regions.insert region { record with
            remaining := left
            resource := some resource } }

/-- `restoreProspected` in place: the sum of everything found goes down before the record goes. -/
def unassign (region : RegionId) (previous : Option RegionRecord) (resource : Resource)
    (amount : UInt64) : Edit WorldError Deposits Unit := do
  let d ← get
  match d.record? region with
  | none => throw (.regionNotFound region)
  | some current =>
    if current.resource ≠ some resource ∨ current.remaining ≠ amount then
      throw (.regionMismatch region .depositChanged)
    match Word.sub? (d.prospected.amount resource) amount with
    | none => throw .arithmeticOverflow
    | some total =>
      if total = 0 then modify fun d ↦ { d with prospected := d.prospected.erase resource }
      else modify fun d ↦ { d with prospected := d.prospected.insert resource total }
      match previous with
      | some record => modify fun d ↦ { d with regions := d.regions.insert region record }
      | none => modify fun d ↦ { d with regions := d.regions.erase region }

/-- Puts extracted units back into a record: the units come before the type. -/
def refill (region : RegionId) (resource : Resource) (amount : UInt64) :
    Edit WorldError RegionRecord Unit := do
  let record ← get
  if record.resource.any (· ≠ resource) then throw (.regionMismatch region .typeDiffers)
  match Word.add? record.remaining amount with
  | none => throw .arithmeticOverflow
  | some left =>
    set { record with remaining := left }
    modify fun record ↦ { record with resource := some resource }

/-- `restoreExtracted` in place. -/
def unextract (region : RegionId) (resource : Resource) (amount : UInt64) :
    Edit WorldError Deposits Unit :=
  Edit.part regions (fun d regions ↦ { d with regions := regions }) (fun x ↦ x)
    (Edit.existing region (.regionNotFound region) (refill region resource amount))

/-- The remaining units of all deposits, region by region. -/
def remainingAmounts (d : Deposits) : List (Resource × UInt64) :=
  d.regions.values.filterMap RegionRecord.deposit?

end Deposits

/-! ### Operations in place -/

namespace Recording

/-- `Deposits.assign` in place: the sum of everything found goes up before the record comes. -/
def assign (region : RegionId) (resource : Resource) (amount : UInt64)
    (prospection : Prospection) : Recording WorldError Deposits Unit := do
  let d ← edit get
  match d.resource? region with
  | some (present, remaining) => throw (.alreadyAssigned region present remaining)
  | none =>
    if amount = 0 then throw (.emptyDeposit region)
    match Word.add? (d.prospected.amount resource) amount with
    | none => throw .arithmeticOverflow
    | some total =>
      push (.regionProspected region (d.record? region) resource amount)
      edit (modify fun d ↦ { d with prospected := d.prospected.insert resource total })
      edit (modify fun d ↦ { d with
        regions := d.regions.insert region ⟨some resource, amount, prospection⟩ })

/-- `Deposits.extract` in place. -/
def extract (region : RegionId) (amount : UInt64) :
    Recording WorldError Deposits (Option (Resource × UInt64)) := do
  match (← edit get).record? region with
  | none => return none
  | some record =>
    match record.resource with
    | none => return none
    | some resource =>
      let taken := min amount record.remaining
      if taken = 0 then return some (resource, 0)
      push (.regionExtracted region resource taken)
      edit (modify fun d ↦ { d with regions := d.regions.insert region (record.without taken) })
      return some (resource, taken)

end Recording

end MiningGame
