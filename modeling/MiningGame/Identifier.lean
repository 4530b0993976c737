import MiningGame.Table
import MiningGame.Word

/-!
# Identifiers

Characters are numbered from one in the order of their creation. Regions are numbered by their
place on the map. Block hashes are opaque texts that are only compared.
-/

namespace MiningGame

structure CharacterId where
  value : UInt64
  deriving DecidableEq, Repr

structure RegionId where
  value : UInt64
  deriving DecidableEq, Repr

structure BlockHash where
  text : String
  deriving DecidableEq, Repr

namespace CharacterId

def first : CharacterId := ⟨1⟩

/-- The number after this one, unless this is the last. -/
def next? (id : CharacterId) : Option CharacterId :=
  (Word.add? id.value 1).map CharacterId.mk

def text (id : CharacterId) : String := Word.text id.value

instance : Ranked CharacterId where
  rank id := id.value.toNat
  rank_injective h := congrArg mk (UInt64.toNat_inj.1 h)

end CharacterId

namespace RegionId

def text (id : RegionId) : String := Word.text id.value

instance : Ranked RegionId where
  rank id := id.value.toNat
  rank_injective h := congrArg mk (UInt64.toNat_inj.1 h)

end RegionId

end MiningGame
