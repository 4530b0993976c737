import Mathlib.Algebra.Ring.Nat
import MiningGame.Proofs.Undoing

/-!
# Totals

The four places where units can be, as sums over the natural numbers: what was ever prospected,
what remains in deposits, what characters carry and what lies on the ground. Setting an entry
changes a sum by the difference to the entry before (`Table.total_set`), which gives the effect of
every operation on the sums.
-/

namespace MiningGame

namespace Table

variable {κ α : Type} [Ranked κ]

/-- The sum of what a table's values count for. -/
def total (t : Table κ α) (f : α → Nat) : Nat := (t.entries.map fun e ↦ f e.2).sum

theorem sum_put (f : α → Nat) (k : κ) (v : α) {entries : List (κ × α)} (h : Ascending entries) :
    ((put k v entries).map fun e ↦ f e.2).sum + (lookUp k entries).elim 0 f =
      (entries.map fun e ↦ f e.2).sum + f v := by
  induction entries with
  | nil => simp [put, lookUp]
  | cons head rest ih =>
    obtain ⟨k', v'⟩ := head
    obtain ⟨hhead, hrest⟩ := List.pairwise_cons.1 h
    have hrec := ih hrest
    by_cases hlt : rank k < rank k'
    · have hnone : lookUp k ((k', v') :: rest) = none := by
        refine lookUp_eq_none_of_lt fun e he ↦ ?_
        rcases List.mem_cons.1 he with rfl | he
        · exact hlt
        · exact Nat.lt_trans hlt (hhead e he)
      rw [put, if_pos hlt, hnone]
      simp only [List.map_cons, List.sum_cons, Option.elim_none]
      omega
    · by_cases heq : rank k = rank k'
      · rw [put, if_neg hlt, if_pos heq, lookUp, if_pos heq]
        simp only [List.map_cons, List.sum_cons, Option.elim_some]
        omega
      · rw [put, if_neg hlt, if_neg heq, lookUp, if_neg heq]
        simp only [List.map_cons, List.sum_cons]
        omega

theorem sum_erase (f : α → Nat) (k : κ) {entries : List (κ × α)} (h : Ascending entries) :
    ((entries.filter fun e ↦ rank e.1 != rank k).map fun e ↦ f e.2).sum +
      (lookUp k entries).elim 0 f = (entries.map fun e ↦ f e.2).sum := by
  induction entries with
  | nil => rfl
  | cons head rest ih =>
    obtain ⟨k', v'⟩ := head
    obtain ⟨hhead, hrest⟩ := List.pairwise_cons.1 h
    by_cases heq : rank k = rank k'
    · have hkeep : (rest.filter fun e ↦ rank e.1 != rank k) = rest := by
        refine List.filter_eq_self.2 fun e he ↦ ?_
        have hlt : rank k' < rank e.1 := hhead e he
        simp only [bne_iff_ne, ne_eq]
        omega
      rw [List.filter_cons_of_neg (by simp [heq]), hkeep, lookUp, if_pos heq]
      simp only [List.map_cons, List.sum_cons, Option.elim_some]
      omega
    · have hrec := ih hrest
      rw [List.filter_cons_of_pos (by simpa using Ne.symm heq), lookUp, if_neg heq]
      simp only [List.map_cons, List.sum_cons]
      omega

/-- Setting an entry changes a sum by the difference to the entry before. -/
theorem total_set (t : Table κ α) (f : α → Nat) (k : κ) (v : Option α) :
    (t.set k v).total f + (t.get? k).elim 0 f = t.total f + v.elim 0 f := by
  cases v with
  | some v => exact sum_put f k v t.ascending
  | none => exact sum_erase f k t.ascending

theorem le_total {t : Table κ α} {k : κ} {v : α} (f : α → Nat) (h : t.get? k = some v) :
    f v ≤ t.total f := by
  have hset := t.total_set f k none
  rw [h, Option.elim_some, Option.elim_none] at hset
  omega

end Table

/-! ## Where units are -/

/-- What a region holds of a resource. -/
def RegionRecord.holds (record : RegionRecord) (r : Resource) : Nat :=
  if record.resource = some r then record.remaining.toNat else 0

def Deposits.remainingOf (d : Deposits) (r : Resource) : Nat :=
  d.regions.total fun record ↦ record.holds r

def Roster.carriedOf (roster : Roster) (r : Resource) : Nat :=
  roster.characters.total fun c ↦ (c.inventory.amount r).toNat

def GroundLoot.lyingOf (l : GroundLoot) (r : Resource) : Nat :=
  l.piles.total fun pile ↦ (Bundle.amount pile r).toNat

def Deposits.prospectedOf (d : Deposits) (r : Resource) : Nat := (d.prospected.amount r).toNat

/-- Every unit ever prospected remains in a deposit, is carried or lies on the ground. -/
def GameState.Balanced (s : GameState) : Prop :=
  ∀ r, s.deposits.prospectedOf r =
    s.deposits.remainingOf r + s.roster.carriedOf r + s.loot.lyingOf r

theorem GameState.balanced_new (grid : Grid) : (GameState.new grid).Balanced := fun _ ↦ rfl

theorem Deposits.prospectedOf_lt (d : Deposits) (r : Resource) : d.prospectedOf r < UInt64.size :=
  UInt64.toNat_lt_size _

namespace Roster

variable {r : Roster} {id : CharacterId} {c c' : Character} {resource : Resource}

theorem carriedOf_store (found : r.get? id = some c) (c' : Character) (resource : Resource) :
    (r.store id c').carriedOf resource + (c.inventory.amount resource).toNat =
      r.carriedOf resource + (c'.inventory.amount resource).toNat := by
  have hset := r.characters.total_set (fun c ↦ (c.inventory.amount resource).toNat) id (some c')
  have hget : r.characters.get? id = some c := found
  rw [hget] at hset
  exact hset

theorem carriedOf_store_of_eq (found : r.get? id = some c) (h : c'.inventory = c.inventory)
    (resource : Resource) : (r.store id c').carriedOf resource = r.carriedOf resource := by
  have hstore := carriedOf_store found c' resource
  rw [h] at hstore
  omega

theorem amount_le_carriedOf (found : r.get? id = some c) (resource : Resource) :
    (c.inventory.amount resource).toNat ≤ r.carriedOf resource :=
  Table.le_total (fun c : Character ↦ (c.inventory.amount resource).toNat) found

end Roster

namespace GroundLoot

theorem elim_piles (l : GroundLoot) (p : Coord) (r : Resource) :
    (l.piles.get? p).elim 0 (fun pile ↦ (Bundle.amount pile r).toNat) = (l.amountAt p r).toNat := by
  unfold amountAt pileAt
  cases l.piles.get? p with
  | none => rfl
  | some pile => rfl

theorem lyingOf_setPile (l : GroundLoot) (p : Coord) (pile : Bundle) (r : Resource) :
    (l.setPile p pile).lyingOf r + (l.amountAt p r).toNat =
      l.lyingOf r + (pile.amount r).toNat := by
  have hset := l.piles.total_set (fun pile ↦ (Bundle.amount pile r).toNat) p
    (if pile.isEmpty then none else some pile)
  have hpile : (if pile.isEmpty then none else some pile).elim 0
      (fun pile ↦ (Bundle.amount pile r).toNat) = (pile.amount r).toNat := by
    by_cases hempty : pile.isEmpty = true
    · rw [if_pos hempty, Table.isEmpty_iff.1 hempty]
      rfl
    · rw [if_neg hempty]
      rfl
  rw [hpile, elim_piles] at hset
  rw [setPile_eq]
  exact hset

theorem amountAt_le_lyingOf (l : GroundLoot) (p : Coord) (r : Resource) :
    (l.amountAt p r).toNat ≤ l.lyingOf r := by
  have hset := l.lyingOf_setPile p ∅ r
  rw [Bundle.amount_empty, UInt64.toNat_zero] at hset
  omega

end GroundLoot

namespace Deposits

theorem remainingOf_insert (d : Deposits) (region : RegionId) (record : RegionRecord)
    (r : Resource) :
    ({ d with regions := d.regions.insert region record } : Deposits).remainingOf r +
      (d.record? region).elim 0 (fun old ↦ old.holds r) = d.remainingOf r + record.holds r :=
  d.regions.total_set (fun old ↦ old.holds r) region (some record)

end Deposits

/-! ## What operations do to the totals -/

/-- An amount of one resource, counted per resource. -/
def units (resource : Resource) (amount : UInt64) (r : Resource) : Nat :=
  if resource = r then amount.toNat else 0

@[simp] theorem units_self (resource : Resource) (amount : UInt64) :
    units resource amount resource = amount.toNat := if_pos rfl

theorem units_of_ne {resource r : Resource} (h : r ≠ resource) (amount : UInt64) :
    units resource amount r = 0 := if_neg h.symm

@[simp] theorem units_zero (resource r : Resource) : units resource 0 r = 0 := by
  unfold units
  split <;> rfl

theorem Bundle.amount_withAmount_add {b : Bundle} {resource : Resource} {amount total : UInt64}
    (h : Word.add? (b.amount resource) amount = some total) (r : Resource) :
    ((b.withAmount resource total).amount r).toNat =
      (b.amount r).toNat + units resource amount r := by
  have hsum := Word.add?_eq_some_iff.1 h
  rw [amount_withAmount]
  by_cases hr : r = resource
  · rw [if_pos hr, hr, units_self]
    exact hsum.symm
  · rw [if_neg hr, units_of_ne hr]
    rfl

theorem Bundle.amount_withAmount_sub {b : Bundle} {resource : Resource} {amount left : UInt64}
    (h : Word.sub? (b.amount resource) amount = some left) (r : Resource) :
    ((b.withAmount resource left).amount r).toNat + units resource amount r =
      (b.amount r).toNat := by
  have hdiff := Word.sub?_eq_some_iff.1 h
  rw [amount_withAmount]
  by_cases hr : r = resource
  · rw [if_pos hr, hr, units_self]
    exact hdiff
  · rw [if_neg hr, units_of_ne hr]
    rfl

namespace Roster

variable {r : Roster} {id : CharacterId} {c : Character} {resource : Resource} {amount : UInt64}

theorem credit_ok (found : r.get? id = some c)
    (hfits : (c.inventory.amount resource).toNat + amount.toNat < UInt64.size) :
    ∃ out, r.credit id resource amount = .ok out ∧
      ∀ x, out.state.carriedOf x = r.carriedOf x + units resource amount x := by
  unfold credit
  by_cases hzero : amount = 0
  · rw [if_pos hzero, hzero]
    exact ⟨_, rfl, fun x ↦ by rw [units_zero]; rfl⟩
  · obtain ⟨total, hsum⟩ := Word.exists_add? hfits
    rw [if_neg hzero, find_eq_ok_iff.2 found]
    refine ⟨_, bind_eq_ok_iff.2 ⟨c, rfl, bind_eq_ok_iff.2
      ⟨_, Inventory.add_eq_ok hzero hsum, rfl⟩⟩, fun x ↦ ?_⟩
    have hstore := carriedOf_store found
      { c with inventory := c.inventory.withAmount resource total } x
    have hamount := Bundle.amount_withAmount_add hsum x
    simp only at hstore ⊢
    omega

theorem debit_ok (found : r.get? id = some c)
    (henough : amount.toNat ≤ (c.inventory.amount resource).toNat) :
    ∃ out, r.debit id resource amount = .ok out ∧
      ∀ x, out.state.carriedOf x + units resource amount x = r.carriedOf x := by
  unfold debit
  by_cases hzero : amount = 0
  · rw [if_pos hzero, hzero]
    exact ⟨_, rfl, fun x ↦ by rw [units_zero]; rfl⟩
  · obtain ⟨left, hdiff⟩ := Word.exists_sub? henough
    rw [if_neg hzero, find_eq_ok_iff.2 found]
    refine ⟨_, bind_eq_ok_iff.2 ⟨c, rfl, bind_eq_ok_iff.2
      ⟨_, Inventory.remove_eq_ok hdiff, rfl⟩⟩, fun x ↦ ?_⟩
    have hstore := carriedOf_store found
      { c with inventory := c.inventory.withAmount resource left } x
    have hamount := Bundle.amount_withAmount_sub hdiff x
    simp only at hstore ⊢
    omega

end Roster

namespace GroundLoot

variable {l : GroundLoot} {p : Coord} {resource : Resource} {amount : UInt64}

theorem dropAt_ok (hfits : (l.amountAt p resource).toNat + amount.toNat < UInt64.size) :
    ∃ out, l.dropAt p resource amount = .ok out ∧
      ∀ x, out.state.lyingOf x = l.lyingOf x + units resource amount x := by
  unfold dropAt
  by_cases hzero : amount = 0
  · rw [if_pos hzero, hzero]
    exact ⟨_, rfl, fun x ↦ by rw [units_zero]; rfl⟩
  · obtain ⟨total, hsum⟩ := Word.exists_add? hfits
    rw [if_neg hzero]
    refine ⟨_, bind_eq_ok_iff.2 ⟨_, add_eq_ok hzero hsum, rfl⟩, fun x ↦ ?_⟩
    have hset := l.lyingOf_setPile p ((l.pileAt p).withAmount resource total) x
    have hamount := Bundle.amount_withAmount_add hsum x
    change _ = (l.amountAt p x).toNat + _ at hamount
    change (l.setPile p ((l.pileAt p).withAmount resource total)).lyingOf x = _
    omega

theorem pickUp_lyingOf (l : GroundLoot) (p : Coord) (resource : Resource) (requested : UInt64)
    (x : Resource) : (l.pickUp p resource requested).state.lyingOf x +
      units resource (l.pickUp p resource requested).answer x = l.lyingOf x := by
  unfold pickUp
  simp only
  split
  · rw [units_zero]
    rfl
  · have hle : (min requested (l.amountAt p resource)).toNat ≤ (l.amountAt p resource).toNat :=
      Word.toNat_min_le_right _ _
    obtain ⟨left, hdiff⟩ := Word.exists_sub? hle
    have hset := l.lyingOf_setPile p ((l.pileAt p).withAmount resource left) x
    have hamount := Bundle.amount_withAmount_sub hdiff x
    change _ = (l.amountAt p x).toNat at hamount
    simp only [remove_eq_ok hdiff]
    omega

end GroundLoot

namespace Deposits

variable {d : Deposits} {region : RegionId} {resource : Resource} {amount : UInt64}

theorem holds_of_resource? (h : d.resource? region = none) (r : Resource) :
    (d.record? region).elim 0 (fun old ↦ old.holds r) = 0 := by
  unfold resource? at h
  cases hrecord : d.record? region with
  | none => rfl
  | some record =>
    rw [hrecord] at h
    have hnone : record.resource = none := Option.map_eq_none_iff.1 h
    simp [RegionRecord.holds, hnone]

theorem holds_without {record : RegionRecord} {taken : UInt64}
    (hresource : record.resource = some resource) (hle : taken.toNat ≤ record.remaining.toNat)
    (r : Resource) : (record.without taken).holds r + units resource taken r = record.holds r := by
  have hleft := Word.toNat_sub_of_le hle
  unfold RegionRecord.without RegionRecord.holds
  simp only [hresource, Option.some.injEq]
  by_cases hr : resource = r
  · subst hr
    rw [units_self, if_pos rfl]
    by_cases hzero : record.remaining - taken = 0
    · rw [hzero, UInt64.toNat_zero] at hleft
      rw [if_pos hzero, if_neg (by simp)]
      omega
    · rw [if_neg hzero, if_pos rfl]
      omega
  · rw [units_of_ne (Ne.symm hr), if_neg hr]
    refine if_neg fun h ↦ hr ?_
    split at h
    · cases h
    · exact Option.some.inj h

theorem extract_totals (d : Deposits) (region : RegionId) (amount : UInt64) :
    (∀ x, (d.extract region amount).state.prospectedOf x = d.prospectedOf x) ∧
      match (d.extract region amount).answer with
      | none => (d.extract region amount).state = d
      | some (resource, taken) => ∀ x,
        (d.extract region amount).state.remainingOf x + units resource taken x =
          d.remainingOf x := by
  unfold extract
  split
  · exact ⟨fun _ ↦ rfl, rfl⟩
  · next record hrecord =>
    split
    · exact ⟨fun _ ↦ rfl, rfl⟩
    · next resource hresource =>
      simp only
      split
      · exact ⟨fun _ ↦ rfl, fun x ↦ by rw [units_zero]; rfl⟩
      · refine ⟨fun _ ↦ rfl, fun x ↦ ?_⟩
        have hle : (min amount record.remaining).toNat ≤ record.remaining.toNat :=
          Word.toNat_min_le_right _ _
        have hset := d.remainingOf_insert region
          (record.without (min amount record.remaining)) x
        have hholds := holds_without hresource hle x
        rw [hrecord, Option.elim_some] at hset
        dsimp only
        omega

theorem assign_totals {prospection : Prospection} {out : Recorded Deposits Unit}
    (h : d.assign region resource amount prospection = .ok out) (x : Resource) :
    out.state.prospectedOf x = d.prospectedOf x + units resource amount x ∧
      out.state.remainingOf x = d.remainingOf x + units resource amount x := by
  simp only [assign] at h
  split at h
  · cases h
  · next hvacant =>
    split at h
    · cases h
    · next hpos =>
      split at h
      · cases h
      · next total hsum =>
        cases h
        rw [Bundle.insert_eq_withAmount _ _ (Word.add?_ne_zero hsum hpos)]
        refine ⟨Bundle.amount_withAmount_add hsum x, ?_⟩
        have hset := d.remainingOf_insert region ⟨some resource, amount, prospection⟩ x
        have hholds : (RegionRecord.mk (some resource) amount prospection).holds x =
            units resource amount x := by
          unfold RegionRecord.holds units
          simp only [Option.some.injEq]
        rw [holds_of_resource? hvacant, hholds] at hset
        exact hset

end Deposits

end MiningGame
