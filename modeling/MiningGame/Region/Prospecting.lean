import MiningGame.Identifier
import MiningGame.Resource
import MiningGame.Word

/-!
# Prospecting

What a prospector finds is a function of the region and the block height. The seeded prospector
draws both the type and the size of a deposit from a mixer of its seed, the region and the height,
so all observers of a chain find the same deposits.
-/

namespace MiningGame

/-- What prospecting a region brings to light. -/
structure Find where
  resource : Resource
  amount : UInt64
  deriving DecidableEq, Repr

/-- What is found in a region by a prospection confirmed at a height, if anything. -/
abbrev Prospector := RegionId → UInt64 → Option Find

namespace Mixer

/-- The word that is scrambled: the seed plus odd multiples of region and height. -/
def blend (seed region height : UInt64) : UInt64 :=
  seed + region * 0x9e3779b97f4a7c15 + height * 0x517cc1b727220a95

/-- The word with a copy of itself, shifted up by `n` bits, added without carries. -/
def foldUp (n : UInt64) (w : UInt64) : UInt64 := w ^^^ (w <<< n)

/-- The word with a copy of itself, shifted down by `n` bits, added without carries. -/
def foldDown (n : UInt64) (w : UInt64) : UInt64 := w ^^^ (w >>> n)

/-- Scrambles a word by three shifts; zero, which shifts cannot change, is replaced first. -/
def scramble (w : UInt64) : UInt64 :=
  foldUp 17 (foldDown 7 (foldUp 13 (if w = 0 then 0xdeadbeefcafebabe else w)))

def draw (seed region height : UInt64) : UInt64 := scramble (blend seed region height)

end Mixer

/-- A prospector that draws from a list of resources and a range of sizes. -/
structure SeededProspector where
  seed : UInt64
  resources : List Resource
  least : UInt64
  most : UInt64
  deriving DecidableEq

namespace SeededProspector

/-- The prospector between two bounds, which may be given in either order. -/
def between (seed : UInt64) (resources : List Resource) (a b : UInt64) : SeededProspector :=
  if a ≤ b then ⟨seed, resources, a, b⟩ else ⟨seed, resources, b, a⟩

/-- The place in the list that a draw leads to, if there is any. The length of a list is a natural
number, so that it needs no checks to reckon with it. -/
def place (p : SeededProspector) (drawn : UInt64) : Option Nat :=
  if p.resources.length = 0 then none else some (drawn.toNat % p.resources.length)

/-- How far a drawn size lies above the least one. The range of all words has no width that is a
word, and there the draw itself is the distance. -/
def offset (p : SeededProspector) (drawn : UInt64) : Option UInt64 := do
  let span ← Word.sub? p.most p.least
  match Word.add? span 1 with
  | some width => Word.rem? drawn width
  | none => return drawn

/-- The find in a region at a height: none without resources to draw from or if all sizes are
zero, and never of size zero. -/
def prospect (p : SeededProspector) : Prospector := fun region height ↦ do
  if p.resources.length = 0 ∨ p.most = 0 then none
  let first := Mixer.draw p.seed region.value height
  let second := Mixer.draw first region.value height
  let resource ← p.resources[← p.place first]?
  let amount ← Word.add? p.least (← p.offset second)
  return ⟨resource, if amount = 0 then 1 else amount⟩

end SeededProspector

end MiningGame
