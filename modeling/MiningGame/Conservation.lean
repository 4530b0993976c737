import MiningGame.Resource
import MiningGame.Word

/-!
# Conservation of resources

Units enter the game by prospecting and then only move: from a deposit to a character, and between
characters and the ground. So for every resource, what was ever prospected is what remains in
deposits plus what is carried plus what lies on the ground. The audit checks this equation on sums
of 64-bit words.
-/

namespace MiningGame

structure ResourceTotals where
  prospected : Bundle
  remaining : Bundle
  carried : Bundle
  loot : Bundle
  deriving DecidableEq

/-- The bundle with an amount added, unless the sum is no word. Adding zero lists the resource. -/
def Bundle.tally? (b : Bundle) (resource : Resource) (amount : UInt64) : Option Bundle :=
  (Word.add? (b.amount resource) amount).map fun total ↦ b.insert resource total

def Bundle.tallyAll? (b : Bundle) (amounts : List (Resource × UInt64)) : Option Bundle :=
  amounts.foldlM (fun b entry ↦ Bundle.tally? b entry.1 entry.2) b

/-- A resource whose totals contradict each other: the units that left deposits and those held by
characters and the ground. -/
structure Imbalance where
  minedOut : UInt64
  held : UInt64
  deriving DecidableEq, Repr

structure Anomaly where
  height : UInt64
  imbalances : Table Resource Imbalance
  deriving DecidableEq

def Anomaly.message (a : Anomaly) : String :=
  "CONSERVATION_ANOMALY at height " ++ Word.text a.height ++ ": " ++
    toString a.imbalances.size ++ " resource(s) do not balance"

namespace ResourceTotals

/-- The imbalance of four amounts of one resource. With more remaining than was prospected nothing
counts as mined out; a sum of held units above the largest word counts as that word. -/
def imbalance? (prospected remaining carried loot : UInt64) : Option Imbalance :=
  match Word.sub? prospected remaining with
  | none => some ⟨0, remaining⟩
  | some minedOut =>
    match Word.add? carried loot with
    | none => some ⟨minedOut, Word.largest⟩
    | some held => if minedOut = held then none else some ⟨minedOut, held⟩

def imbalanceOf? (t : ResourceTotals) (resource : Resource) : Option Imbalance :=
  imbalance? (t.prospected.amount resource) (t.remaining.amount resource)
    (t.carried.amount resource) (t.loot.amount resource)

/-- The resources that some bundle lists. -/
def listed (t : ResourceTotals) : List Resource :=
  Resource.all.filter fun r ↦
    t.prospected.contains r || t.remaining.contains r || t.carried.contains r || t.loot.contains r

/-- The listed resources that do not balance. -/
def imbalances (t : ResourceTotals) : Table Resource Imbalance :=
  Table.ofList (t.listed.filterMap fun r ↦ (t.imbalanceOf? r).map fun i ↦ (r, i))

def audit (t : ResourceTotals) (height : UInt64) : Option Anomaly :=
  if t.imbalances.isEmpty then none else some ⟨height, t.imbalances⟩

end ResourceTotals

end MiningGame
