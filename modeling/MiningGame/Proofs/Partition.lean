import Mathlib.Data.Rat.Floor
import MiningGame.Region.Grid

/-!
# The regions cut up the map

The cell of a coordinate is its quotient by the edge length, rounded down: no step of the division
of words leaves their range (`Grid.DividesExactly`). A number holds its column and its row side by
side, so different cells have different numbers, and a region is a full square of the map.
-/

namespace MiningGame

/-- A position lies in the square of a column and a row. -/
def Coord.InSquare (p : Coord) (size : Nat) (column row : Int) : Prop :=
  (column * size ≤ p.x.toInt ∧ p.x.toInt < column * size + size) ∧
    row * size ≤ p.y.toInt ∧ p.y.toInt < row * size + size

namespace Grid

variable {g : Grid} {c : Int32}

/-! ## Dividing words -/

/-- Every word that comes up when a coordinate is divided is the number that it stands for. -/
structure DividesExactly (g : Grid) (c : Int32) : Prop where
  side : g.side.toInt = g.edge
  quotient : (c / g.side).toInt = c.toInt.tdiv g.edge
  remainder : (c % g.side).toInt = c.toInt.tmod g.edge
  before : c % g.side < 0 → (c / g.side - 1).toInt = (c / g.side).toInt - 1
  cell : (g.cell c).toInt = c.toInt / g.edge

theorem toInt_side (g : Grid) : g.side.toInt = g.edge :=
  Int32.toInt_ofNat_of_lt g.edge_lt

theorem edge_pos_int (g : Grid) : (0 : Int) < g.edge := Int.natCast_pos.2 g.edge_pos

theorem toInt_quotient (g : Grid) (c : Int32) : (c / g.side).toInt = c.toInt.tdiv g.edge := by
  have hside : g.side ≠ -1 := by
    intro h
    have hpos := g.edge_pos_int
    rw [← g.toInt_side, h] at hpos
    exact absurd hpos (by decide)
  rw [Int32.toInt_div_of_ne_right c g.side hside, g.toInt_side]

theorem toInt_remainder (g : Grid) (c : Int32) : (c % g.side).toInt = c.toInt.tmod g.edge := by
  rw [Int32.toInt_mod, g.toInt_side]

/-- The remainder is negative where rounding down and rounding towards zero differ. -/
theorem remainder_neg_iff (g : Grid) (c : Int32) :
    c % g.side < 0 ↔ ¬ (0 ≤ c.toInt ∨ (g.edge : Int) ∣ c.toInt) := by
  have hpos := g.edge_pos_int
  have hnonneg := Int.emod_nonneg c.toInt hpos.ne'
  have hlt := Int.emod_lt_of_pos c.toInt hpos
  rw [Int32.lt_iff_toInt_lt, toInt_remainder, Int32.toInt_zero, Int.tmod_eq_emod]
  split
  · next hexact => simp [hexact, hnonneg]
  · next hexact =>
    simp only [hexact, not_false_eq_true, iff_true, Int.natAbs_natCast]
    omega

theorem toInt_quotient_of_neg (h : c % g.side < 0) :
    (c / g.side).toInt = c.toInt / g.edge + 1 := by
  rw [toInt_quotient, Int.tdiv_eq_ediv, if_neg ((g.remainder_neg_iff c).1 h),
    Int.sign_eq_one_of_pos g.edge_pos_int]

theorem toInt_quotient_of_not_neg (h : ¬ c % g.side < 0) :
    (c / g.side).toInt = c.toInt / g.edge := by
  rw [toInt_quotient, Int.tdiv_eq_ediv, if_pos (not_not.1 (mt (g.remainder_neg_iff c).2 h)),
    Int.add_zero]

/-- A quotient by at least one is no further from zero. -/
theorem le_ediv_edge (g : Grid) (c : Int32) : -2 ^ 31 ≤ c.toInt / g.edge := by
  have hpos := g.edge_pos_int
  rw [Int.le_ediv_iff_mul_le hpos]
  calc
    -2 ^ 31 * (g.edge : Int) ≤ -2 ^ 31 * 1 := Int.mul_le_mul_of_nonpos_left (by decide) hpos
    _ ≤ c.toInt := c.le_toInt

theorem toInt_before (h : c % g.side < 0) :
    (c / g.side - 1).toInt = (c / g.side).toInt - 1 := by
  have hquotient := toInt_quotient_of_neg h
  have hle := g.le_ediv_edge c
  have hlt := (c / g.side).toInt_lt
  rw [Int32.toInt_sub, Int32.toInt_one]
  exact Int.bmod_eq_of_le_mul_two (by omega) (by omega)

theorem toInt_cell (g : Grid) (c : Int32) : (g.cell c).toInt = c.toInt / g.edge := by
  unfold cell
  by_cases h : c % g.side < 0
  · rw [if_pos h, toInt_before h, toInt_quotient_of_neg h, Int.add_sub_cancel]
  · rw [if_neg h, toInt_quotient_of_not_neg h]

theorem dividesExactly (g : Grid) (c : Int32) : g.DividesExactly c where
  side := g.toInt_side
  quotient := g.toInt_quotient c
  remainder := g.toInt_remainder c
  before := toInt_before
  cell := g.toInt_cell c

/-! ## Numbering the cells -/

/-- The row fills the lower half of a number and the column the upper half. -/
theorem toNat_numbered (column row : Int32) :
    (numbered column row).value.toNat =
      column.toUInt32.toNat * 0x100000000 + row.toUInt32.toNat := by
  have hcolumn := column.toUInt32.toNat_lt
  have hrow := row.toUInt32.toNat_lt
  have hshift : column.toUInt32.toNat <<< 32 % 2 ^ 64 = column.toUInt32.toNat <<< 32 := by
    rw [Nat.shiftLeft_eq]
    omega
  rw [numbered, UInt64.toNat_or, UInt64.toNat_shiftLeft, UInt32.toNat_toUInt64,
    UInt32.toNat_toUInt64]
  change column.toUInt32.toNat <<< 32 % 2 ^ 64 ||| row.toUInt32.toNat = _
  rw [hshift, ← Nat.shiftLeft_add_eq_or_of_lt hrow, Nat.shiftLeft_eq]

theorem numbered_inj {column row column' row' : Int32} :
    numbered column row = numbered column' row' ↔ column = column' ∧ row = row' := by
  constructor
  · intro h
    have hnumber := congrArg (fun id : RegionId ↦ id.value.toNat) h
    simp only [toNat_numbered] at hnumber
    have hrow := row.toUInt32.toNat_lt
    have hrow' := row'.toUInt32.toNat_lt
    have hcolumns : column.toUInt32 = column'.toUInt32 := UInt32.toNat_inj.1 (by omega)
    have hrows : row.toUInt32 = row'.toUInt32 := UInt32.toNat_inj.1 (by omega)
    exact ⟨congrArg Int32.ofUInt32 hcolumns, congrArg Int32.ofUInt32 hrows⟩
  · rintro ⟨rfl, rfl⟩
    rfl

theorem cell_eq_iff {c' : Int32} :
    g.cell c = g.cell c' ↔ c.toInt / g.edge = c'.toInt / g.edge := by
  rw [← Int32.toInt_inj, toInt_cell, toInt_cell]

theorem regionAt_eq_iff {a b : Coord} : g.regionAt a = g.regionAt b ↔
    a.x.toInt / g.edge = b.x.toInt / g.edge ∧ a.y.toInt / g.edge = b.y.toInt / g.edge := by
  rw [regionAt, regionAt, numbered_inj, cell_eq_iff, cell_eq_iff]

/-! ## Squares -/

theorem inSquare_iff (g : Grid) {p : Coord} {column row : Int} : p.InSquare g.edge column row ↔
    p.x.toInt / g.edge = column ∧ p.y.toInt / g.edge = row := by
  rw [Int.ediv_eq_iff_of_pos g.edge_pos_int, Int.ediv_eq_iff_of_pos g.edge_pos_int]
  rfl

/-- The regions of a grid are the full squares of its edge length, each with a number of its own,
and dividing never goes beyond the range of words. -/
structure Partitions (g : Grid) (size : Nat) : Prop where
  same_iff : ∀ a b, g.regionAt a = g.regionAt b ↔
    ⌊(a.x.toInt : ℚ) / size⌋ = ⌊(b.x.toInt : ℚ) / size⌋ ∧
      ⌊(a.y.toInt : ℚ) / size⌋ = ⌊(b.y.toInt : ℚ) / size⌋
  square : ∀ a b, g.regionAt b = g.regionAt a ↔
    b.InSquare size ⌊(a.x.toInt : ℚ) / size⌋ ⌊(a.y.toInt : ℚ) / size⌋
  distinct : ∀ a b column row column' row', a.InSquare size column row →
    b.InSquare size column' row' → g.regionAt a = g.regionAt b → column = column' ∧ row = row'
  divides : ∀ c, g.DividesExactly c

theorem partitions_edge (g : Grid) : g.Partitions g.edge where
  same_iff a b := by
    simp only [Rat.floor_intCast_div_natCast]
    exact regionAt_eq_iff
  square a b := by
    simp only [Rat.floor_intCast_div_natCast]
    rw [regionAt_eq_iff, inSquare_iff]
  distinct a b column row column' row' ha hb h := by
    obtain ⟨rfl, rfl⟩ := g.inSquare_iff.1 ha
    obtain ⟨rfl, rfl⟩ := g.inSquare_iff.1 hb
    exact regionAt_eq_iff.1 h
  divides := g.dividesExactly

/-- Every edge length that is positive and a map coordinate cuts the map into squares, and no other
length is accepted. -/
theorem ofEdge?_partitions (size : UInt32) :
    match ofEdge? size with
    | some g => g.Partitions size.toNat
    | none => size = 0 ∨ 2 ^ 31 ≤ size.toNat := by
  unfold ofEdge?
  by_cases h : 0 < size.toNat ∧ size.toNat < 0x80000000
  · rw [dif_pos h]
    exact partitions_edge ⟨size.toNat, h.1, h.2⟩
  · rw [dif_neg h]
    by_cases hzero : size.toNat = 0
    · exact .inl (UInt32.toNat_inj.1 hzero)
    · exact .inr (by omega)

/-- Coordinates around zero and at the lower limit. -/
example : (ofEdge? 10).map (fun g ↦ (g.cell (-1), g.cell (-10), g.cell 9, g.cell Int32.minValue)) =
    some (-1, -1, 0, -214748365) := by decide

end Grid

end MiningGame
