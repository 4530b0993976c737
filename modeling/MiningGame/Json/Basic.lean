/-!
# JSON values

Values as a text spells them: fields keep their order and may repeat, and what a text may contain
but nobody may read is kept as a flaw. A document is a value that is free of flaws, not nested too
deeply, and has one field per name.
-/

namespace MiningGame

inductive Json where
  | null
  | bool (b : Bool)
  /-- An integer between `-2 ^ 63` and `2 ^ 64 - 1`; negative zero is none. -/
  | int (n : Int)
  | decimal (spelling : List Char)
  | str (text : String)
  | arr (items : List Json)
  | obj (fields : List (String × Json))
  /-- A number beyond the doubles, or a text or field name with half a surrogate pair. -/
  | flawed
  deriving Inhabited

namespace Json

def str? : Json → Option String
  | str text => some text
  | _ => none

def arr? : Json → Option (List Json)
  | arr items => some items
  | _ => none

def obj? : Json → Option (List (String × Json))
  | obj fields => some fields
  | _ => none

def word? : Json → Option UInt64
  | int n => if 0 ≤ n ∧ n.toNat < UInt64.size then some (UInt64.ofNat n.toNat) else none
  | _ => none

/-- The value of an object's field; of two fields of one name the later counts. -/
def field? (j : Json) (name : String) : Option Json :=
  j.obj?.bind fun fields ↦ (fields.reverse.find? fun f ↦ f.1 == name).map (·.2)

/-- The containers that may be nested in a document. -/
def documentDepth : Nat := 127

mutual

/-- The document that a value is, if at most `room` containers are nested in it. -/
def document? (room : Nat) : Json → Option Json
  | flawed => none
  | arr items =>
    match room with
    | 0 => none
    | room + 1 => (documentItems? room items).map arr
  | obj fields =>
    match room with
    | 0 => none
    | room + 1 => (documentFields? room fields).map obj
  | j => some j

def documentItems? (room : Nat) : List Json → Option (List Json)
  | [] => some []
  | j :: rest => do
    let j' ← document? room j
    let rest' ← documentItems? room rest
    return j' :: rest'

/-- The fields of an object as documents, without those that are followed by one of the same
name. -/
def documentFields? (room : Nat) : List (String × Json) → Option (List (String × Json))
  | [] => some []
  | (name, j) :: rest => do
    let j' ← document? room j
    let rest' ← documentFields? room rest
    return if rest'.any fun f ↦ f.1 == name then rest' else (name, j') :: rest'

end

end Json

end MiningGame
