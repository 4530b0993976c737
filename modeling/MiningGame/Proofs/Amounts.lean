import MiningGame.Character.Inventory
import MiningGame.Loot

/-!
# Setting what is kept under a key

Bundles without zero amounts and piles that are not empty are determined by what they answer. So
adding to them, taking from them and taking either back all come down to setting an amount
(`Bundle.withAmount`) or a pile (`GroundLoot.setPile`), where the last setting counts and setting
what is there already changes nothing.
-/

namespace MiningGame

namespace Table

variable {κ α : Type} [Ranked κ]

/-- The table with a value put under a key, or with nothing under it. -/
def set (t : Table κ α) (k : κ) : Option α → Table κ α
  | some v => t.insert k v
  | none => t.erase k

theorem get?_set (t : Table κ α) (k k' : κ) (v : Option α) :
    (t.set k v).get? k' = if rank k' = rank k then v else t.get? k' := by
  cases v with
  | some v => exact get?_insert t k k' v
  | none => exact get?_erase t k k'

@[simp] theorem get?_set_self (t : Table κ α) (k : κ) (v : Option α) :
    (t.set k v).get? k = v := by
  rw [get?_set, if_pos rfl]

@[simp] theorem set_set (t : Table κ α) (k : κ) (v w : Option α) :
    (t.set k v).set k w = t.set k w := by
  refine ext_get? fun k' ↦ ?_
  rw [get?_set, get?_set, get?_set]
  split <;> rfl

@[simp] theorem set_get? (t : Table κ α) (k : κ) : t.set k (t.get? k) = t := by
  refine ext_get? fun k' ↦ ?_
  rw [get?_set]
  split
  · next h => rw [rank_injective h]
  · rfl

theorem set_eq_self {t : Table κ α} {k : κ} {v : Option α} (h : t.get? k = v) :
    t.set k v = t := by
  rw [← h, set_get?]

theorem forall_get?_iff {t : Table κ α} {P : κ → α → Prop} :
    (∀ k v, t.get? k = some v → P k v) ↔ ∀ e ∈ t.entries, P e.1 e.2 := by
  constructor
  · intro h e he
    exact h e.1 e.2 (get?_eq_some_iff.2 he)
  · intro h k v hv
    exact h (k, v) (get?_eq_some_iff.1 hv)

theorem isEmpty_iff {t : Table κ α} : t.isEmpty = true ↔ t = ∅ := by
  constructor
  · intro h
    exact ext_entries (List.isEmpty_iff.1 h)
  · rintro rfl
    rfl

end Table

namespace Bundle

/-- No listed amount is zero. -/
def Positive (b : Bundle) : Prop := ∀ r, b.get? r ≠ some 0

/-- The bundle with the amount of a resource set; a zero amount is not listed. -/
def withAmount (b : Bundle) (r : Resource) (x : UInt64) : Bundle :=
  b.set r (if x = 0 then none else some x)

instance (b : Bundle) : Decidable b.Positive :=
  decidable_of_iff (∀ e ∈ b.entries, e.2 ≠ 0) <| by
    rw [← Table.forall_get?_iff (P := fun _ x ↦ x ≠ 0)]
    exact ⟨fun h r hr ↦ h r 0 hr rfl, fun h r x hx h0 ↦ h r (h0 ▸ hx)⟩

theorem positive_empty : Positive ∅ := by
  intro r
  simp

theorem amount_empty (r : Resource) : amount ∅ r = 0 := rfl

theorem insert_eq_withAmount (b : Bundle) (r : Resource) {x : UInt64} (hx : x ≠ 0) :
    b.insert r x = b.withAmount r x := by
  rw [withAmount, if_neg hx]
  rfl

theorem erase_or_insert_eq_withAmount (b : Bundle) (r : Resource) (x : UInt64) :
    (if x = 0 then b.erase r else b.insert r x) = b.withAmount r x := by
  unfold withAmount
  split <;> rfl

theorem amount_withAmount (b : Bundle) (r r' : Resource) (x : UInt64) :
    (b.withAmount r x).amount r' = if r' = r then x else b.amount r' := by
  unfold amount withAmount
  rw [Table.get?_set]
  by_cases hr : r' = r
  · rw [if_pos (rank_inj.2 hr), if_pos hr]
    by_cases hx : x = 0
    · simp [hx]
    · simp [hx]
  · rw [if_neg (mt rank_inj.1 hr), if_neg hr]

theorem get?_withAmount_of_ne (b : Bundle) {r r' : Resource} (x : UInt64) (h : r' ≠ r) :
    (b.withAmount r x).get? r' = b.get? r' := by
  rw [withAmount, Table.get?_set, if_neg (mt rank_inj.1 h)]

@[simp] theorem withAmount_withAmount (b : Bundle) (r : Resource) (x y : UInt64) :
    (b.withAmount r x).withAmount r y = b.withAmount r y :=
  Table.set_set b r _ _

theorem Positive.withAmount {b : Bundle} (hb : b.Positive) (r : Resource) (x : UInt64) :
    (b.withAmount r x).Positive := by
  intro r'
  unfold Bundle.withAmount
  rw [Table.get?_set]
  split
  · split
    · simp
    · next hx => simpa using hx
  · exact hb r'

theorem Positive.withAmount_amount {b : Bundle} (hb : b.Positive) (r : Resource) :
    b.withAmount r (b.amount r) = b := by
  refine Table.set_eq_self ?_
  have hr := hb r
  unfold amount
  cases hget : b.get? r with
  | none => simp
  | some x =>
    have hx : x ≠ 0 := fun h ↦ hr (hget.trans (congrArg some h))
    simp [hx]

/-- Setting an amount back to what it was. -/
theorem Positive.withAmount_of_eq {b : Bundle} (hb : b.Positive) {r : Resource} (x : UInt64)
    {y : UInt64} (hy : y = b.amount r) : (b.withAmount r x).withAmount r y = b := by
  rw [withAmount_withAmount, hy, hb.withAmount_amount]

theorem withAmount_ne_empty (b : Bundle) (r : Resource) {x : UInt64} (hx : x ≠ 0) :
    b.withAmount r x ≠ ∅ := by
  intro h
  have hamount := amount_withAmount b r r x
  rw [h, if_pos rfl] at hamount
  exact hx hamount.symm

end Bundle

namespace Inventory

theorem add_eq_ok {inventory : Bundle} {r : Resource} {amount total : UInt64} (ha : amount ≠ 0)
    (h : Word.add? (inventory.amount r) amount = some total) :
    add inventory r amount = .ok (inventory.withAmount r total) := by
  unfold add
  rw [if_neg ha, h]
  simp only
  rw [Bundle.insert_eq_withAmount _ _ (Word.add?_ne_zero h ha)]

theorem add_eq_ok_iff {inventory inventory' : Bundle} {r : Resource} {amount : UInt64}
    (ha : amount ≠ 0) : add inventory r amount = .ok inventory' ↔
      ∃ total, Word.add? (inventory.amount r) amount = some total ∧
        inventory' = inventory.withAmount r total := by
  constructor
  · intro h
    cases hsum : Word.add? (inventory.amount r) amount with
    | none => simp [add, ha, hsum] at h
    | some total =>
      rw [add_eq_ok ha hsum] at h
      exact ⟨total, rfl, (Except.ok.inj h).symm⟩
  · rintro ⟨total, hsum, rfl⟩
    exact add_eq_ok ha hsum

theorem remove_eq_ok {inventory : Bundle} {r : Resource} {amount left : UInt64}
    (h : Word.sub? (inventory.amount r) amount = some left) :
    remove inventory r amount = .ok (inventory.withAmount r left) := by
  unfold remove
  simp only [h]
  rw [Bundle.erase_or_insert_eq_withAmount]

theorem remove_eq_ok_iff {inventory inventory' : Bundle} {r : Resource} {amount : UInt64} :
    remove inventory r amount = .ok inventory' ↔
      ∃ left, Word.sub? (inventory.amount r) amount = some left ∧
        inventory' = inventory.withAmount r left := by
  constructor
  · intro h
    cases hdiff : Word.sub? (inventory.amount r) amount with
    | none => simp [remove, hdiff] at h
    | some left =>
      rw [remove_eq_ok hdiff] at h
      exact ⟨left, rfl, (Except.ok.inj h).symm⟩
  · rintro ⟨left, hdiff, rfl⟩
    exact remove_eq_ok hdiff

end Inventory

namespace GroundLoot

theorem setPile_eq (l : GroundLoot) (p : Coord) (pile : Bundle) :
    l.setPile p pile = ⟨l.piles.set p (if pile.isEmpty then none else some pile)⟩ := by
  unfold setPile
  split <;> rfl

theorem pileAt_setPile (l : GroundLoot) (p p' : Coord) (pile : Bundle) :
    (l.setPile p pile).pileAt p' = if p' = p then pile else l.pileAt p' := by
  rw [setPile_eq]
  unfold pileAt
  rw [Table.get?_set]
  by_cases hp : p' = p
  · rw [if_pos (rank_inj.2 hp), if_pos hp]
    by_cases he : pile.isEmpty = true
    · rw [if_pos he, Table.isEmpty_iff.1 he]
      rfl
    · rw [if_neg he]
      rfl
  · rw [if_neg (mt rank_inj.1 hp), if_neg hp]

@[simp] theorem pileAt_setPile_self (l : GroundLoot) (p : Coord) (pile : Bundle) :
    (l.setPile p pile).pileAt p = pile := by
  rw [pileAt_setPile, if_pos rfl]

theorem piles_setPile_of_ne (l : GroundLoot) {p p' : Coord} (pile : Bundle) (h : p' ≠ p) :
    (l.setPile p pile).piles.get? p' = l.piles.get? p' := by
  rw [setPile_eq]
  exact (Table.get?_set ..).trans (if_neg (mt rank_inj.1 h))

@[simp] theorem setPile_setPile (l : GroundLoot) (p : Coord) (pile pile' : Bundle) :
    (l.setPile p pile).setPile p pile' = l.setPile p pile' := by
  simp only [setPile_eq, Table.set_set]

/-- Where no pile is empty, setting a pile to itself changes nothing. -/
theorem setPile_pileAt {l : GroundLoot} {p : Coord} (hp : l.piles.get? p ≠ some ∅) :
    l.setPile p (l.pileAt p) = l := by
  rw [setPile_eq]
  congr 1
  refine Table.set_eq_self ?_
  unfold pileAt
  cases hget : l.piles.get? p with
  | none => rfl
  | some pile =>
    have hne : pile.isEmpty = false := by
      rw [Bool.eq_false_iff]
      intro he
      exact hp (hget.trans (congrArg some (Table.isEmpty_iff.1 he)))
    simp [hne]

/-- Adding to a pile sets an amount in it, unless nothing is there in the end. -/
theorem add_eq_ok_of_total {l : GroundLoot} {p : Coord} {r : Resource} {amount total : UInt64}
    (htotal : total ≠ 0) (h : Word.add? (l.amountAt p r) amount = some total) :
    l.add p r amount = .ok (l.setPile p ((l.pileAt p).withAmount r total)) := by
  have hne : ((l.pileAt p).withAmount r total).isEmpty = false := by
    rw [Bool.eq_false_iff]
    intro he
    exact Bundle.withAmount_ne_empty _ r htotal (Table.isEmpty_iff.1 he)
  unfold add setPile
  rw [h, hne]
  simp only [Bool.false_eq_true, if_false]
  rw [Bundle.insert_eq_withAmount _ _ htotal]

theorem add_eq_ok {l : GroundLoot} {p : Coord} {r : Resource} {amount total : UInt64}
    (ha : amount ≠ 0) (h : Word.add? (l.amountAt p r) amount = some total) :
    l.add p r amount = .ok (l.setPile p ((l.pileAt p).withAmount r total)) :=
  add_eq_ok_of_total (Word.add?_ne_zero h ha) h

theorem add_eq_ok_iff {l l' : GroundLoot} {p : Coord} {r : Resource} {amount : UInt64}
    (ha : amount ≠ 0) : l.add p r amount = .ok l' ↔
      ∃ total, Word.add? (l.amountAt p r) amount = some total ∧
        l' = l.setPile p ((l.pileAt p).withAmount r total) := by
  constructor
  · intro h
    cases hsum : Word.add? (l.amountAt p r) amount with
    | none => simp [add, hsum] at h
    | some total =>
      rw [add_eq_ok ha hsum] at h
      exact ⟨total, rfl, (Except.ok.inj h).symm⟩
  · rintro ⟨total, hsum, rfl⟩
    exact add_eq_ok ha hsum

theorem remove_eq_ok {l : GroundLoot} {p : Coord} {r : Resource} {amount left : UInt64}
    (h : Word.sub? (l.amountAt p r) amount = some left) :
    l.remove p r amount = .ok (l.setPile p ((l.pileAt p).withAmount r left)) := by
  unfold remove
  simp only [h]
  cases hget : l.piles.get? p with
  | some pile =>
    have hpile : l.pileAt p = pile := by simp [pileAt, hget]
    simp only [hpile]
    rw [Bundle.erase_or_insert_eq_withAmount]
  | none =>
    -- Without a pile only nothing can be taken, and the empty pile stays away.
    have hpile : l.pileAt p = ∅ := by simp [pileAt, hget]
    have hzero : l.amountAt p r = 0 := by
      unfold amountAt
      rw [hpile]
      rfl
    have hleft : left = 0 := by
      have hdiff := Word.sub?_eq_some_iff.1 h
      rw [hzero, UInt64.toNat_zero] at hdiff
      exact Word.eq_zero_of_toNat (by omega)
    have hempty : (l.pileAt p).withAmount r left = l.pileAt p := by
      rw [hpile, hleft]
      exact Bundle.positive_empty.withAmount_amount r
    have hstay : l.setPile p (l.pileAt p) = l := setPile_pileAt (by simp [hget])
    simp only
    rw [hempty, hstay]

theorem remove_eq_ok_iff {l l' : GroundLoot} {p : Coord} {r : Resource} {amount : UInt64} :
    l.remove p r amount = .ok l' ↔
      ∃ left, Word.sub? (l.amountAt p r) amount = some left ∧
        l' = l.setPile p ((l.pileAt p).withAmount r left) := by
  constructor
  · intro h
    cases hdiff : Word.sub? (l.amountAt p r) amount with
    | none => simp [remove, hdiff] at h
    | some left =>
      rw [remove_eq_ok hdiff] at h
      exact ⟨left, rfl, (Except.ok.inj h).symm⟩
  · rintro ⟨left, hdiff, rfl⟩
    exact remove_eq_ok hdiff

end GroundLoot

end MiningGame
