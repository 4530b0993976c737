import MiningGame.Move.Basic
import MiningGame.Wire.Values

/-!
# Moves as documents

Players write moves as JSON objects such as `{"mine": {}, "drop": {"f": {"raw a": 5}}}`. A part
that cannot be understood is left out; the others still count.
-/

namespace MiningGame.CharacterMove

/-- A directive whose value must be the empty object. -/
def bareDirective? (d : Directive) (j : Json) : Option Directive :=
  match j with
  | .obj [] => some d
  | _ => none

/-- The positive amount that an entry gives for a resource. -/
def item? (entry : String × Json) : Option (Resource × UInt64) := do
  let resource ← Resource.ofName? entry.1
  let amount ← entry.2.word?
  if amount = 0 then none else return (resource, amount)

/-- The items that an object lists under `f`; there must be one. -/
def items? (j : Json) : Option Bundle := do
  let entries ← (← j.field? "f").obj?
  let bundle := Table.ofList (entries.filterMap item?)
  if bundle.isEmpty then none else return bundle

/-- The directive that a field stands for. -/
def directive? (field : String × Json) : Option Directive :=
  match field.1 with
  | "prospect" => bareDirective? .prospect field.2
  | "mine" => bareDirective? .mine field.2
  | "wp" => (Wire.decode field.2).map .waypoints
  | "drop" => (items? field.2).map .drop
  | "pu" => (items? field.2).map .pickup
  | _ => none

/-- The move that a document stands for: what its fields stand for, one pushed after the other. -/
def ofDocument (document : Json) : CharacterMove :=
  match document with
  | .obj fields => empty.pushAll (fields.filterMap directive?)
  | _ => empty

end MiningGame.CharacterMove
