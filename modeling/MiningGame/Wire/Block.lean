import MiningGame.Block.Input
import MiningGame.Wire.Values

/-!
# Moves, blocks and chain updates on the wire
-/

namespace MiningGame

open Wire

instance : Wire Directive where
  encode
    | .waypoints places => .alternative "Waypoints" (encode places)
    | .mine => .str "Mine"
    | .pickup items => .alternative "Pickup" (encode items)
    | .drop items => .alternative "Drop" (encode items)
    | .prospect => .str "Prospect"
  decode j := do
    match ← j.alternative? with
    | ("Waypoints", some payload) => return .waypoints (← decode payload)
    | ("Mine", payload) => if Json.isBare payload then some .mine else none
    | ("Pickup", some payload) => return .pickup (← decode payload)
    | ("Drop", some payload) => return .drop (← decode payload)
    | ("Prospect", payload) => if Json.isBare payload then some .prospect else none
    | _ => none

instance : Wire CharacterMove where
  encode m := .obj [("directives", encode m.directives)]
  decode j := do
    match ← j.slots? ["directives"] with
    | [directives] => return ⟨← directives.required⟩
    | _ => none

instance : Wire CreateCharacter where
  encode c := .obj [
    ("owner", encode c.owner),
    ("name", encode c.name),
    ("position", encode c.position)]
  decode j := do
    match ← j.slots? ["owner", "name", "position"] with
    | [owner, name, position] =>
      return ⟨← owner.required, ← name.required, ← position.required⟩
    | _ => none

instance : Wire BlockInput where
  encode b := .obj [
    ("height", encode b.height),
    ("hash", encode b.hash),
    ("parent", encode b.parent),
    ("creates", encode b.creates),
    ("moves", encode b.moves)]
  decode j := do
    match ← j.slots? ["height", "hash", "parent", "creates", "moves"] with
    | [height, hash, parent, creates, moves] =>
      return ⟨← height.required, ← hash.required, ← parent.required, ← creates.orElse [],
        ← moves.orElse []⟩
    | _ => none

instance : Wire ChainUpdate where
  encode u := .obj [
    ("best_hash", encode u.bestHash),
    ("reorg", encode u.reorg),
    ("blocks", encode u.blocks)]
  decode j := do
    match ← j.slots? ["best_hash", "reorg", "blocks"] with
    | [bestHash, reorg, blocks] =>
      return ⟨← bestHash.required, ← reorg.required, ← blocks.required⟩
    | _ => none

end MiningGame
