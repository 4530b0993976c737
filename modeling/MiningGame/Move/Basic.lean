import MiningGame.Coord
import MiningGame.Identifier
import MiningGame.Resource

/-!
# Moves

A move is a list of directives. Moves that are built with `CharacterMove.push` hold at most one
directive of each kind, in the order in which a block carries them out. A move that was read from
a text holds whatever the text lists.
-/

namespace MiningGame

inductive Directive where
  | waypoints (places : List Coord)
  | mine
  | pickup (items : Bundle)
  | drop (items : Bundle)
  | prospect
  deriving DecidableEq

/-- The place of a directive's kind in the order of execution. -/
def Directive.rank : Directive → Nat
  | waypoints _ => 0
  | mine => 1
  | pickup _ => 2
  | drop _ => 3
  | prospect => 4

/-- The directives that one character gets in a block. -/
structure CharacterMove where
  directives : List Directive
  deriving DecidableEq

namespace CharacterMove

def empty : CharacterMove := ⟨[]⟩

instance : Inhabited CharacterMove := ⟨empty⟩

/-- A directive put in front of the first one of a later kind. -/
def place (d : Directive) : List Directive → List Directive
  | [] => [d]
  | e :: rest => if d.rank < e.rank then d :: e :: rest else e :: place d rest

/-- The move without directives of the same kind as the given one. -/
def removeKind (m : CharacterMove) (kind : Directive) : CharacterMove :=
  ⟨m.directives.filter fun d ↦ d.rank ≠ kind.rank⟩

/-- The move with a directive added in place of those of its kind. -/
def push (m : CharacterMove) (d : Directive) : CharacterMove :=
  ⟨place d (m.removeKind d).directives⟩

/-- The move with a list of directives pushed one after the other. -/
def pushAll (m : CharacterMove) (directives : List Directive) : CharacterMove :=
  directives.foldl push m

def isEmpty (m : CharacterMove) : Bool := m.directives.isEmpty

def waypoints? (m : CharacterMove) : Option (List Coord) :=
  m.directives.findSome? fun
    | .waypoints places => some places
    | _ => none

def pickup? (m : CharacterMove) : Option Bundle :=
  m.directives.findSome? fun
    | .pickup items => some items
    | _ => none

def drop? (m : CharacterMove) : Option Bundle :=
  m.directives.findSome? fun
    | .drop items => some items
    | _ => none

def mines (m : CharacterMove) : Bool := m.directives.any fun d ↦ d = .mine

def prospects (m : CharacterMove) : Bool := m.directives.any fun d ↦ d = .prospect

/-- The move that a block carries out: waypoints cancel mining, and either of the two cancels
prospecting. -/
def resolve (m : CharacterMove) : CharacterMove :=
  let m := if m.waypoints?.isSome && m.mines then m.removeKind .mine else m
  if m.prospects && (m.waypoints?.isSome || m.mines) then m.removeKind .prospect else m

/-- One move per character: the directives of all its moves, pushed in order. -/
def merge (moves : List (CharacterId × CharacterMove)) : Table CharacterId CharacterMove :=
  moves.foldl (fun merged (id, m) ↦
    merged.insert id (((merged.get? id).getD empty).pushAll m.directives)) ∅

end CharacterMove

end MiningGame
