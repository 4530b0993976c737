import MiningGame.Coord
import MiningGame.Identifier

/-!
# The region grid

The map is cut into square cells of one edge length. A cell is a region, numbered by its column
and row as two 32-bit halves of one word. All of it is computed in words.
-/

namespace MiningGame

/-- A partition of the map into square regions. -/
structure Grid where
  edge : Nat
  edge_pos : 0 < edge := by decide
  edge_lt : edge < 0x80000000 := by decide
  deriving DecidableEq

namespace Grid

/-- The grid of an edge length, which must be positive and a map coordinate. -/
def ofEdge? (edge : UInt32) : Option Grid :=
  if h : 0 < edge.toNat ∧ edge.toNat < 0x80000000 then some ⟨edge.toNat, h.1, h.2⟩ else none

/-- The edge length as a map coordinate. -/
def side (g : Grid) : Int32 := Int32.ofNat g.edge

/-- The cell that a coordinate falls in along one axis; cells start at multiples of the edge. Words
are divided towards zero, so where that leaves a negative remainder the cell is the one before. -/
def cell (g : Grid) (c : Int32) : Int32 :=
  let quotient := c / g.side
  if c % g.side < 0 then quotient - 1 else quotient

/-- The number of the region in a column and a row. -/
def numbered (column row : Int32) : RegionId :=
  ⟨column.toUInt32.toUInt64 <<< 32 ||| row.toUInt32.toUInt64⟩

/-- The region that holds a position. -/
def regionAt (g : Grid) (p : Coord) : RegionId := numbered (g.cell p.x) (g.cell p.y)

end Grid

end MiningGame
