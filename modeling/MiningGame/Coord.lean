import MiningGame.Table

/-!
# Map positions

Positions have 32-bit signed coordinates and are ordered by column, then by row.
-/

namespace MiningGame

structure Coord where
  x : Int32
  y : Int32
  deriving DecidableEq, Repr

namespace Coord

def text (p : Coord) : String :=
  "(" ++ toString p.x.toInt ++ ", " ++ toString p.y.toInt ++ ")"

/-- The place of a position in the order by column, then by row. -/
def order (p : Coord) : Nat :=
  ((p.x.toInt + 0x80000000) * 0x100000000 + (p.y.toInt + 0x80000000)).toNat

theorem order_injective {p q : Coord} (h : p.order = q.order) : p = q := by
  obtain ⟨px, py⟩ := p
  obtain ⟨qx, qy⟩ := q
  have := px.le_toInt
  have := py.le_toInt
  have := qx.le_toInt
  have := qy.le_toInt
  have := px.toInt_lt
  have := py.toInt_lt
  have := qx.toInt_lt
  have := qy.toInt_lt
  simp only [order] at h
  have hx : px.toInt = qx.toInt := by omega
  have hy : py.toInt = qy.toInt := by omega
  rw [Int32.toInt_inj.1 hx, Int32.toInt_inj.1 hy]

instance : Ranked Coord where
  rank := order
  rank_injective := order_injective

end Coord

end MiningGame
