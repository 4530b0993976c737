import MiningGame.Json.Reader
import MiningGame.Json.Writer
import MiningGame.Word

/-!
# Values on the wire

Typed values and the JSON values that stand for them. A record is an object with its fields by
name, in which unknown fields are ignored and no known one may repeat, or an array of its fields in
order. A choice between alternatives is the name of an alternative, or an object with this name and
what belongs to it.
-/

namespace MiningGame

class Wire (α : Type) where
  encode : α → Json
  decode : Json → Option α

namespace Wire

def read? {α : Type} [Wire α] (text : String) : Option α := (Json.parse? text).bind decode

def write {α : Type} [Wire α] (a : α) : String := (encode a).compactText

instance : Wire Bool where
  encode := .bool
  decode
    | .bool b => some b
    | _ => none

instance : Wire String where
  encode := .str
  decode := Json.str?

instance : Wire UInt64 where
  encode n := .int n.toNat
  decode := Json.word?

instance : Wire Int32 where
  encode n := .int n.toInt
  decode
    | .int n => if -0x80000000 ≤ n ∧ n < 0x80000000 then some (Int32.ofInt n) else none
    | _ => none

instance {α : Type} [Wire α] : Wire (List α) where
  encode as := .arr (as.map encode)
  decode j := j.arr?.bind fun items ↦ items.mapM decode

instance {α β : Type} [Wire α] [Wire β] : Wire (α × β) where
  encode p := .arr [encode p.1, encode p.2]
  decode
    | .arr [a, b] => do return (← decode a, ← decode b)
    | _ => none

instance {α : Type} [Wire α] : Wire (Option α) where
  encode
    | none => .null
    | some a => encode a
  decode
    | .null => some none
    | j => (decode j).map some

end Wire

inductive Slot where
  | given (j : Json)
  /-- It is an object without the field. -/
  | left
  /-- It is an array that ends before the field. -/
  | cutOff

namespace Slot

variable {α : Type} [Wire α]

def required : Slot → Option α
  | given j => Wire.decode j
  | left => none
  | cutOff => none

/-- A field that an object may leave out to say that there is no value. -/
def optional : Slot → Option (Option α)
  | given j => Wire.decode j
  | left => some none
  | cutOff => none

/-- A field with a value for records that do not give one. -/
def orElse (default : α) : Slot → Option α
  | given j => Wire.decode j
  | left => some default
  | cutOff => some default

end Slot

namespace Json

/-- What an object says about a field. A field that is given twice cannot be read. -/
def slot? (fields : List (String × Json)) (name : String) : Option Slot :=
  match fields.filter fun f ↦ f.1 == name with
  | [] => some .left
  | [(_, j)] => some (.given j)
  | _ => none

/-- What a record says about its fields, in the order of their names. -/
def slots? (names : List String) : Json → Option (List Slot)
  | obj fields => names.mapM (slot? fields)
  | arr items =>
    if items.length ≤ names.length then
      some (items.map .given ++ List.replicate (names.length - items.length) .cutOff)
    else none
  | _ => none

def alternative? : Json → Option (String × Option Json)
  | str name => some (name, none)
  | obj [(name, j)] => some (name, some j)
  | _ => none

def alternative (name : String) (j : Json) : Json := obj [(name, j)]

/-- Whether an alternative comes without anything that belongs to it. -/
def isBare : Option Json → Bool
  | none => true
  | some null => true
  | some _ => false

end Json

end MiningGame
