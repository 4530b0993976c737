import MiningGame.Table

/-!
# Resources

The nine resources that deposits hold, characters carry and the ground collects, and bundles:
amounts per resource.
-/

namespace MiningGame

inductive Resource where
  | rawA | rawB | rawC | rawD | rawE | rawF | rawG | rawH | rawI
  deriving DecidableEq, Repr

namespace Resource

/-- All resources, in their fixed order. -/
def all : List Resource :=
  [rawA, rawB, rawC, rawD, rawE, rawF, rawG, rawH, rawI]

/-- The place of a resource in `all`. -/
def index : Resource → Nat
  | rawA => 0
  | rawB => 1
  | rawC => 2
  | rawD => 3
  | rawE => 4
  | rawF => 5
  | rawG => 6
  | rawH => 7
  | rawI => 8

def name : Resource → String
  | rawA => "raw a"
  | rawB => "raw b"
  | rawC => "raw c"
  | rawD => "raw d"
  | rawE => "raw e"
  | rawF => "raw f"
  | rawG => "raw g"
  | rawH => "raw h"
  | rawI => "raw i"

def ofName? (text : String) : Option Resource :=
  all.find? fun r ↦ r.name == text

theorem index_injective {a b : Resource} (h : a.index = b.index) : a = b := by
  revert h
  cases a <;> cases b <;> decide

theorem mem_all (r : Resource) : r ∈ all := by
  cases r <;> decide

theorem ofName?_name (r : Resource) : ofName? r.name = some r := by
  cases r <;> decide

theorem name_eq_of_ofName? {text : String} {r : Resource} (h : ofName? text = some r) :
    r.name = text := by
  simpa using List.find?_some h

instance : Ranked Resource where
  rank := index
  rank_injective := index_injective

end Resource

/-- Amounts per resource. An absent resource counts as zero; whether zero amounts may be listed
depends on where the bundle is kept. -/
abbrev Bundle := Table Resource UInt64

def Bundle.amount (b : Bundle) (r : Resource) : UInt64 :=
  (b.get? r).getD 0

end MiningGame
