/-!
# Checked 64-bit quantities

Amounts, heights and ids are 64-bit words. The operations here answer `none` exactly when the
result over the natural numbers is no word, so a statement about words can be read as one about
natural numbers: see `add?_eq_some_iff`, `sub?_eq_some_iff` and `rem?_eq_some`.
-/

namespace MiningGame.Word

def largest : UInt64 := 18446744073709551615

/-- The sum of two words, unless it is larger than every word. -/
def add? (a b : UInt64) : Option UInt64 :=
  if a.toNat + b.toNat < UInt64.size then some (a + b) else none

/-- The difference of two words, unless it is negative. -/
def sub? (a b : UInt64) : Option UInt64 :=
  if b.toNat ≤ a.toNat then some (a - b) else none

/-- The remainder by a word, unless that is zero. -/
def rem? (a b : UInt64) : Option UInt64 :=
  if b = 0 then none else some (a % b)

/-- The sum of two words, cut off at the largest word. -/
def addCapped (a b : UInt64) : UInt64 :=
  (add? a b).getD largest

def text (a : UInt64) : String :=
  String.ofList (Nat.toDigits 10 a.toNat)

theorem toNat_add_of_lt {a b : UInt64} (h : a.toNat + b.toNat < UInt64.size) :
    (a + b).toNat = a.toNat + b.toNat := by
  rw [UInt64.toNat_add, Nat.mod_eq_of_lt h]

theorem toNat_sub_of_le {a b : UInt64} (h : b.toNat ≤ a.toNat) :
    (a - b).toNat = a.toNat - b.toNat :=
  UInt64.toNat_sub_of_le a b (UInt64.le_iff_toNat_le.2 h)

theorem add?_eq_some_iff {a b c : UInt64} :
    add? a b = some c ↔ a.toNat + b.toNat = c.toNat := by
  have hc := c.toNat_lt_size
  unfold add?
  split
  · next h =>
    rw [Option.some.injEq, ← UInt64.toNat_inj, toNat_add_of_lt h]
  · next h =>
    simp only [reduceCtorEq, false_iff]
    omega

theorem add?_eq_none_iff {a b : UInt64} :
    add? a b = none ↔ UInt64.size ≤ a.toNat + b.toNat := by
  unfold add?
  split <;> simp <;> omega

theorem sub?_eq_some_iff {a b c : UInt64} :
    sub? a b = some c ↔ c.toNat + b.toNat = a.toNat := by
  unfold sub?
  split
  · next h =>
    rw [Option.some.injEq, ← UInt64.toNat_inj, toNat_sub_of_le h]
    omega
  · next h =>
    simp only [reduceCtorEq, false_iff]
    omega

theorem rem?_eq_some {a b : UInt64} (h : b ≠ 0) : rem? a b = some (a % b) := if_neg h

theorem sub?_eq_none_iff {a b : UInt64} :
    sub? a b = none ↔ a.toNat < b.toNat := by
  unfold sub?
  split <;> simp <;> omega

@[simp] theorem add?_zero (a : UInt64) : add? a 0 = some a :=
  add?_eq_some_iff.2 (by simp)

theorem eq_zero_of_toNat {a : UInt64} (h : a.toNat = 0) : a = 0 := UInt64.toNat_inj.1 h

/-- A sum is zero only if both parts are. -/
theorem add?_eq_some_zero_iff {a b : UInt64} : add? a b = some 0 ↔ a = 0 ∧ b = 0 := by
  rw [add?_eq_some_iff, UInt64.toNat_zero]
  constructor
  · intro h
    exact ⟨eq_zero_of_toNat (by omega), eq_zero_of_toNat (by omega)⟩
  · rintro ⟨rfl, rfl⟩
    rfl

theorem add?_ne_zero {a b c : UInt64} (h : add? a b = some c) (hb : b ≠ 0) : c ≠ 0 := by
  rintro rfl
  exact hb (add?_eq_some_zero_iff.1 h).2

theorem sub?_of_add? {a b c : UInt64} (h : add? a b = some c) : sub? c b = some a :=
  sub?_eq_some_iff.2 (add?_eq_some_iff.1 h)

theorem add?_of_sub? {a b c : UInt64} (h : sub? a b = some c) : add? c b = some a :=
  add?_eq_some_iff.2 (sub?_eq_some_iff.1 h)

theorem exists_add? {a b : UInt64} (h : a.toNat + b.toNat < UInt64.size) : ∃ c, add? a b = some c :=
  ⟨a + b, if_pos h⟩

theorem exists_sub? {a b : UInt64} (h : b.toNat ≤ a.toNat) : ∃ c, sub? a b = some c :=
  ⟨a - b, if_pos h⟩

theorem size_eq : UInt64.size = largest.toNat + 1 := rfl

theorem toNat_le_largest (a : UInt64) : a.toNat ≤ largest.toNat :=
  Nat.le_of_lt_succ a.toNat_lt_size

theorem addCapped_one_le_iff {a b : UInt64} :
    addCapped a 1 ≤ b ↔ a.toNat < b.toNat ∨ b = largest := by
  have hb := toNat_le_largest b
  rw [UInt64.le_iff_toNat_le, addCapped, ← UInt64.toNat_inj]
  cases hsum : add? a 1 with
  | none =>
    have hover := add?_eq_none_iff.1 hsum
    rw [UInt64.toNat_one, size_eq] at hover
    have ha := toNat_le_largest a
    change largest.toNat ≤ b.toNat ↔ _
    omega
  | some above =>
    have habove := add?_eq_some_iff.1 hsum
    rw [UInt64.toNat_one] at habove
    have hle := toNat_le_largest above
    change above.toNat ≤ b.toNat ↔ _
    omega

theorem toNat_min (a b : UInt64) : (min a b).toNat = min a.toNat b.toNat := by
  change (if a ≤ b then a else b).toNat = min a.toNat b.toNat
  rw [Nat.min_def]
  simp only [UInt64.le_iff_toNat_le]
  split <;> rfl

theorem toNat_min_le_right (a b : UInt64) : (min a b).toNat ≤ b.toNat := by
  rw [toNat_min]
  exact Nat.min_le_right _ _

end MiningGame.Word
