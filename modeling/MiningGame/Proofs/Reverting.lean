import MiningGame.Proofs.Edits
import MiningGame.Proofs.Enrolment
import MiningGame.Proofs.Footprints

/-!
# Reverting on any state

On any state, also on one in which a delta was never recorded, the delta can be reverted exactly if
what it is about is there (`GameState.Revertible`). Where it cannot, a failure leaves no trace. Where
it can, nothing changes but what the delta is about: the frame (`GameState.Outside`) says what stays,
part by part of the state, and the rest is told by the states before and after
(`GameState.TakenBack`).
-/

namespace MiningGame

/-! ## One amount of a bundle -/

/-- The second bundle is the first one with so much more of one resource. -/
def Bundle.Plus (b : Bundle) (resource : Resource) (amount : UInt64) (b' : Bundle) : Prop :=
  (b'.amount resource).toNat = (b.amount resource).toNat + amount.toNat ∧
    ∀ r, r ≠ resource → b'.get? r = b.get? r

namespace Bundle

variable {b : Bundle} {resource : Resource} {amount total left : UInt64}

theorem Plus.le {b' : Bundle} (h : b.Plus resource amount b') :
    amount.toNat ≤ (b'.amount resource).toNat := by
  rw [h.1]
  exact Nat.le_add_left _ _

theorem Plus.lt_size {b' : Bundle} (h : b.Plus resource amount b') :
    (b.amount resource).toNat + amount.toNat < UInt64.size :=
  h.1 ▸ (b'.amount resource).toNat_lt_size

theorem plus_zero (b : Bundle) (resource : Resource) : b.Plus resource 0 b :=
  ⟨by simp, fun _ _ ↦ rfl⟩

theorem plus_insert (h : Word.add? (b.amount resource) amount = some total) :
    b.Plus resource amount (b.insert resource total) := by
  refine ⟨?_, fun r hr ↦ Table.get?_insert_of_ne b total hr⟩
  rw [Bundle.amount, Table.get?_insert_self]
  exact (Word.add?_eq_some_iff.1 h).symm

theorem plus_of_withAmount (h : Word.sub? (b.amount resource) amount = some left) :
    (b.withAmount resource left).Plus resource amount b := by
  refine ⟨?_, fun r hr ↦ (get?_withAmount_of_ne b left hr).symm⟩
  rw [amount_withAmount, if_pos rfl]
  exact (Word.sub?_eq_some_iff.1 h).symm

end Bundle

theorem Inventory.plus_of_add {b b' : Bundle} {resource : Resource} {amount : UInt64}
    (h : Inventory.add b resource amount = .ok b') : b.Plus resource amount b' := by
  unfold Inventory.add at h
  split at h
  · next hzero =>
    cases h
    exact hzero ▸ b.plus_zero resource
  · split at h
    · cases h
    · next total hsum =>
      cases h
      exact Bundle.plus_insert hsum

theorem Inventory.plus_of_remove {b b' : Bundle} {resource : Resource} {amount : UInt64}
    (h : Inventory.remove b resource amount = .ok b') : b'.Plus resource amount b := by
  obtain ⟨left, hleft, rfl⟩ := Inventory.remove_eq_ok_iff.1 h
  exact Bundle.plus_of_withAmount hleft

theorem Inventory.exists_add {b : Bundle} {resource : Resource} {amount : UInt64}
    (h : (b.amount resource).toNat + amount.toNat < UInt64.size) :
    ∃ b', Inventory.add b resource amount = .ok b' := by
  by_cases hzero : amount = 0
  · exact ⟨b, if_pos hzero⟩
  · obtain ⟨total, hsum⟩ := Word.exists_add? h
    exact ⟨_, Inventory.add_eq_ok hzero hsum⟩

theorem Inventory.exists_remove {b : Bundle} {resource : Resource} {amount : UInt64}
    (h : amount.toNat ≤ (b.amount resource).toNat) :
    ∃ b', Inventory.remove b resource amount = .ok b' := by
  obtain ⟨left, hleft⟩ := Word.exists_sub? h
  exact ⟨_, Inventory.remove_eq_ok hleft⟩

/-! ## What the tables answer -/

namespace Roster

variable {r r' : Roster} {id : CharacterId} {resource : Resource} {amount : UInt64}

theorem restoreCredited_plus (h : r.restoreCredited id resource amount = .ok r') :
    ∃ c inventory, r.get? id = some c ∧ inventory.Plus resource amount c.inventory ∧
      r' = r.store id { c with inventory := inventory } := by
  obtain ⟨c, hfind, h⟩ := bind_eq_ok_iff.1 h
  obtain ⟨inventory, hremove, h⟩ := bind_eq_ok_iff.1 h
  exact ⟨c, inventory, find_eq_ok_iff.1 hfind, Inventory.plus_of_remove hremove,
    (Except.ok.inj h).symm⟩

theorem restoreDebited_plus (h : r.restoreDebited id resource amount = .ok r') :
    ∃ c inventory, r.get? id = some c ∧ c.inventory.Plus resource amount inventory ∧
      r' = r.store id { c with inventory := inventory } := by
  obtain ⟨c, hfind, h⟩ := bind_eq_ok_iff.1 h
  obtain ⟨inventory, hadd, h⟩ := bind_eq_ok_iff.1 h
  exact ⟨c, inventory, find_eq_ok_iff.1 hfind, Inventory.plus_of_add hadd, (Except.ok.inj h).symm⟩

theorem exists_restoreCredited {c : Character} (found : r.get? id = some c)
    (henough : amount.toNat ≤ (c.inventory.amount resource).toNat) :
    ∃ r', r.restoreCredited id resource amount = .ok r' := by
  obtain ⟨inventory, hremove⟩ := Inventory.exists_remove henough
  unfold restoreCredited
  rw [find_eq_ok_iff.2 found, ok_bind, hremove, ok_bind]
  exact ⟨_, rfl⟩

theorem exists_restoreDebited {c : Character} (found : r.get? id = some c)
    (hfits : (c.inventory.amount resource).toNat + amount.toNat < UInt64.size) :
    ∃ r', r.restoreDebited id resource amount = .ok r' := by
  obtain ⟨inventory, hadd⟩ := Inventory.exists_add hfits
  unfold restoreDebited
  rw [find_eq_ok_iff.2 found, ok_bind, hadd, ok_bind]
  exact ⟨_, rfl⟩

end Roster

namespace GroundLoot

variable {l l' : GroundLoot} {position place : Coord} {resource : Resource} {amount : UInt64}

theorem restoreDropped_plus (h : l.restoreDropped position resource amount = .ok l') :
    (l'.pileAt position).Plus resource amount (l.pileAt position) ∧
      ∀ place, place ≠ position → l'.piles.get? place = l.piles.get? place := by
  obtain ⟨left, hleft, rfl⟩ := remove_eq_ok_iff.1 h
  refine ⟨?_, fun place hplace ↦ piles_setPile_of_ne l _ hplace⟩
  rw [pileAt_setPile_self]
  exact Bundle.plus_of_withAmount hleft

theorem exists_add (h : (l.amountAt position resource).toNat + amount.toNat < UInt64.size) :
    ∃ l', l.add position resource amount = .ok l' := by
  obtain ⟨total, hsum⟩ := Word.exists_add? h
  unfold add
  rw [hsum]
  exact ⟨_, rfl⟩

/-- Also where nothing is put back and only the resource gets listed. -/
theorem restorePickedUp_plus (h : l.restorePickedUp position resource amount = .ok l') :
    (l.pileAt position).Plus resource amount (l'.pileAt position) ∧
      ∀ place, place ≠ position → l'.piles.get? place = l.piles.get? place := by
  unfold restorePickedUp add at h
  split at h
  · cases h
  · next total hsum =>
    cases h
    refine ⟨?_, fun place hplace ↦ Table.get?_insert_of_ne l.piles _ hplace⟩
    have hpile : pileAt ⟨l.piles.insert position ((l.pileAt position).insert resource total)⟩
        position = (l.pileAt position).insert resource total := by
      rw [pileAt, Table.get?_insert_self, Option.getD_some]
    rw [hpile]
    exact Bundle.plus_insert hsum

end GroundLoot

/-! ## The state -/

namespace GameState

/-- A delta can be taken back from a state: what it is about is there, with as much of it as is to be
taken away, and what is given back fits in a word. -/
def Revertible (s : GameState) : UndoDelta → Prop
  | .characterCreated id => id.next? = some s.roster.nextId ∧ ∃ c, s.roster.get? id = some c
  | .miningStatus id _ | .waypoints id _ | .position id _ => ∃ c, s.roster.get? id = some c
  | .inventoryCredited id resource amount =>
    ∃ c, s.roster.get? id = some c ∧ amount.toNat ≤ (c.inventory.amount resource).toNat
  | .inventoryDebited id resource amount =>
    ∃ c, s.roster.get? id = some c ∧
      (c.inventory.amount resource).toNat + amount.toNat < UInt64.size
  | .regionProspected region _ resource amount =>
    (∃ record, s.deposits.record? region = some record ∧ record.resource = some resource ∧
      record.remaining = amount) ∧ amount.toNat ≤ (s.deposits.prospected.amount resource).toNat
  | .regionExtracted region resource amount =>
    ∃ record, s.deposits.record? region = some record ∧
      (∀ r, record.resource = some r → r = resource) ∧
      record.remaining.toNat + amount.toNat < UInt64.size
  | .lootDropped place resource amount =>
    amount.toNat ≤ ((s.loot.pileAt place).amount resource).toNat
  | .lootPickedUp place resource amount =>
    ((s.loot.pileAt place).amount resource).toNat + amount.toNat < UInt64.size

/-- What a delta is about has become what it was before, or as much more or less as was recorded,
and all amounts but that of the one resource are as they were. -/
def TakenBack (s s' : GameState) : UndoDelta → Prop
  | .characterCreated id => s'.roster.get? id = none ∧ s'.roster.nextId = id
  | .miningStatus id previous =>
    ∃ c, s.roster.get? id = some c ∧ s'.roster.get? id = some { c with mining := previous }
  | .waypoints id previous =>
    ∃ c, s.roster.get? id = some c ∧ s'.roster.get? id = some { c with waypoints := previous }
  | .position id previous =>
    ∃ c, s.roster.get? id = some c ∧ s'.roster.get? id = some { c with position := previous }
  | .inventoryCredited id resource amount =>
    ∃ c inventory, s.roster.get? id = some c ∧ inventory.Plus resource amount c.inventory ∧
      s'.roster.get? id = some { c with inventory := inventory }
  | .inventoryDebited id resource amount =>
    ∃ c inventory, s.roster.get? id = some c ∧ c.inventory.Plus resource amount inventory ∧
      s'.roster.get? id = some { c with inventory := inventory }
  | .regionProspected region previous resource amount =>
    s'.deposits.record? region = previous ∧
      s'.deposits.prospected.Plus resource amount s.deposits.prospected
  | .regionExtracted region resource amount =>
    ∃ record total, s.deposits.record? region = some record ∧
      total.toNat = record.remaining.toNat + amount.toNat ∧
      s'.deposits.record? region =
        some { record with resource := some resource, remaining := total }
  | .lootDropped place resource amount =>
    (s'.loot.pileAt place).Plus resource amount (s.loot.pileAt place)
  | .lootPickedUp place resource amount =>
    (s.loot.pileAt place).Plus resource amount (s'.loot.pileAt place)

variable {s s' : GameState} {δ : UndoDelta} {height : UInt64} {e : JournalError}

theorem withRoster_eq_ok_iff {x : Except CharacterError Roster} :
    s.withRoster height x = .ok s' ↔ ∃ r, x = .ok r ∧ s' = { s with roster := r } := by
  cases x <;> simp [withRoster, eq_comm]

theorem withDeposits_eq_ok_iff {x : Except WorldError Deposits} :
    s.withDeposits height x = .ok s' ↔ ∃ d, x = .ok d ∧ s' = { s with deposits := d } := by
  cases x <;> simp [withDeposits, eq_comm]

theorem withLoot_eq_ok_iff {x : Except WorldError GroundLoot} :
    s.withLoot height x = .ok s' ↔ ∃ l, x = .ok l ∧ s' = { s with loot := l } := by
  cases x <;> simp [withLoot, eq_comm]

/-- Every table's error becomes an inconsistency at the height of the block. -/
theorem reverted_error (h : s.reverted height δ = .error e) :
    ∃ reason, e = .undoInconsistency height reason := by
  have hroster : ∀ x, s.withRoster height x = .error e →
      ∃ reason, e = .undoInconsistency height reason
    | .error x, h => ⟨x.message, (Except.error.inj h).symm⟩
  have hdeposits : ∀ x, s.withDeposits height x = .error e →
      ∃ reason, e = .undoInconsistency height reason
    | .error x, h => ⟨x.message, (Except.error.inj h).symm⟩
  have hloot : ∀ x, s.withLoot height x = .error e →
      ∃ reason, e = .undoInconsistency height reason
    | .error x, h => ⟨x.message, (Except.error.inj h).symm⟩
  cases δ with
  | characterCreated | miningStatus | waypoints | position | inventoryCredited
  | inventoryDebited => exact hroster _ h
  | regionProspected | regionExtracted => exact hdeposits _ h
  | lootDropped | lootPickedUp => exact hloot _ h

/-! ### One delta -/

theorem exists_putBack {α : Type} {part : CharacterPart α} {id : CharacterId} {previous : α}
    (h : ∃ c, s.roster.get? id = some c) :
    ∃ s', s.withRoster height (s.roster.putBack part id previous) = .ok s' := by
  obtain ⟨c, found⟩ := h
  have hback : s.roster.putBack part id previous = .ok (s.roster.store id (part.set c previous)) :=
    Roster.putBack_eq_ok_iff.2 ⟨c, found, rfl⟩
  exact ⟨_, withRoster_eq_ok_iff.2 ⟨_, hback, rfl⟩⟩

/-- Where a delta can be taken back, it is. -/
theorem Revertible.exists_reverted (h : s.Revertible δ) (height : UInt64) :
    ∃ s', s.reverted height δ = .ok s' := by
  cases δ with
  | characterCreated id =>
    have hback := Roster.restoreCreated_eq_ok_iff.2 ⟨h.1, h.2, rfl⟩
    exact ⟨_, withRoster_eq_ok_iff.2 ⟨_, hback, rfl⟩⟩
  | miningStatus | waypoints | position => exact exists_putBack h
  | inventoryCredited id resource amount =>
    obtain ⟨c, found, henough⟩ := h
    obtain ⟨r, hback⟩ := Roster.exists_restoreCredited found henough
    exact ⟨_, withRoster_eq_ok_iff.2 ⟨r, hback, rfl⟩⟩
  | inventoryDebited id resource amount =>
    obtain ⟨c, found, hfits⟩ := h
    obtain ⟨r, hback⟩ := Roster.exists_restoreDebited found hfits
    exact ⟨_, withRoster_eq_ok_iff.2 ⟨r, hback, rfl⟩⟩
  | regionProspected region previous resource amount =>
    obtain ⟨⟨record, hrecord, hresource, hremaining⟩, henough⟩ := h
    obtain ⟨left, hleft⟩ := Word.exists_sub? henough
    have hback := Deposits.restoreProspected_eq_ok hrecord hresource hremaining hleft previous
    exact ⟨_, withDeposits_eq_ok_iff.2 ⟨_, hback, rfl⟩⟩
  | regionExtracted region resource amount =>
    obtain ⟨record, hrecord, htype, hfits⟩ := h
    obtain ⟨total, htotal⟩ := Word.exists_add? hfits
    have hback := Deposits.restoreExtracted_eq_ok hrecord htype htotal
    exact ⟨_, withDeposits_eq_ok_iff.2 ⟨_, hback, rfl⟩⟩
  | lootDropped place resource amount =>
    obtain ⟨left, hleft⟩ := Word.exists_sub? h
    exact ⟨_, withLoot_eq_ok_iff.2 ⟨_, GroundLoot.remove_eq_ok hleft, rfl⟩⟩
  | lootPickedUp place resource amount =>
    obtain ⟨l, hadd⟩ := GroundLoot.exists_add h
    exact ⟨_, withLoot_eq_ok_iff.2 ⟨l, hadd, rfl⟩⟩

theorem putBack_outside {α : Type} {part : CharacterPart α} {id : CharacterId} {previous : α}
    (hsubject : δ.subject = .character id)
    (h : s.withRoster height (s.roster.putBack part id previous) = .ok s') :
    (∃ c, s.roster.get? id = some c) ∧ Outside δ s s' ∧
      ∃ c, s.roster.get? id = some c ∧ s'.roster.get? id = some (part.set c previous) := by
  obtain ⟨r, hback, rfl⟩ := withRoster_eq_ok_iff.1 h
  obtain ⟨c, found, rfl⟩ := Roster.putBack_eq_ok_iff.1 hback
  exact ⟨⟨c, found⟩, .of_store hsubject _, c, found, Table.get?_insert_self _ _ _⟩

/-- What was taken back could be, and everything else stays. -/
theorem reverted_outside (h : s.reverted height δ = .ok s') :
    s.Revertible δ ∧ Outside δ s s' ∧ TakenBack s s' δ := by
  cases δ with
  | characterCreated id =>
    obtain ⟨r, hback, rfl⟩ := withRoster_eq_ok_iff.1 h
    obtain ⟨hlast, found, rfl⟩ := Roster.restoreCreated_eq_ok_iff.1 hback
    refine ⟨⟨hlast, found⟩, .of_roster (fun k hk ↦ ?_) (absurd trivial),
      Table.get?_erase_self _ _, rfl⟩
    exact Table.get?_erase_of_ne _ fun heq ↦ hk (heq ▸ rfl)
  | miningStatus | waypoints | position => exact putBack_outside rfl h
  | inventoryCredited id resource amount =>
    obtain ⟨r, hback, rfl⟩ := withRoster_eq_ok_iff.1 h
    obtain ⟨c, inventory, found, hplus, rfl⟩ := Roster.restoreCredited_plus hback
    exact ⟨⟨c, found, hplus.le⟩, .of_store rfl _, c, inventory, found, hplus,
      Table.get?_insert_self _ _ _⟩
  | inventoryDebited id resource amount =>
    obtain ⟨r, hback, rfl⟩ := withRoster_eq_ok_iff.1 h
    obtain ⟨c, inventory, found, hplus, rfl⟩ := Roster.restoreDebited_plus hback
    exact ⟨⟨c, found, hplus.lt_size⟩, .of_store rfl _, c, inventory, found, hplus,
      Table.get?_insert_self _ _ _⟩
  | regionProspected region previous resource amount =>
    obtain ⟨d, hback, rfl⟩ := withDeposits_eq_ok_iff.1 h
    obtain ⟨record, left, hrecord, hresource, hremaining, hleft, rfl⟩ :=
      Deposits.restoreProspected_eq_ok_iff.1 hback
    have hplus := Bundle.plus_of_withAmount hleft
    refine ⟨⟨⟨record, hrecord, hresource, hremaining⟩, hplus.le⟩,
      .of_deposits (fun k hk ↦ ?_) (absurd trivial), Table.get?_set_self _ _ _, hplus⟩
    have hne : k ≠ region := fun heq ↦ hk (heq ▸ rfl)
    exact (Table.get?_set ..).trans (if_neg (mt rank_inj.1 hne))
  | regionExtracted region resource amount =>
    obtain ⟨d, hback, rfl⟩ := withDeposits_eq_ok_iff.1 h
    obtain ⟨record, total, hrecord, htype, htotal, rfl⟩ :=
      Deposits.restoreExtracted_eq_ok_iff.1 hback
    have hsum := Word.add?_eq_some_iff.1 htotal
    refine ⟨⟨record, hrecord, htype, hsum ▸ total.toNat_lt_size⟩,
      .of_deposits (fun k hk ↦ ?_) fun _ ↦ rfl, record, total, hrecord, hsum.symm,
      Table.get?_insert_self _ _ _⟩
    exact Table.get?_insert_of_ne _ _ fun heq ↦ hk (heq ▸ rfl)
  | lootDropped place resource amount =>
    obtain ⟨l, hback, rfl⟩ := withLoot_eq_ok_iff.1 h
    obtain ⟨hplus, hpile⟩ := GroundLoot.restoreDropped_plus hback
    exact ⟨hplus.le, .of_loot rfl hpile, hplus⟩
  | lootPickedUp place resource amount =>
    obtain ⟨l, hback, rfl⟩ := withLoot_eq_ok_iff.1 h
    obtain ⟨hplus, hpile⟩ := GroundLoot.restorePickedUp_plus hback
    exact ⟨hplus.lt_size, .of_loot rfl hpile, hplus⟩

/-- Reverting a delta on any state either changes what the delta is about and nothing else, or the
delta cannot be taken back, which is answered by an inconsistency at the height of the block and
changes nothing at all. -/
theorem revert_atomic (s : GameState) (height : UInt64) (δ : UndoDelta) :
    match revert height δ s with
    | .ok _ s' => s.Revertible δ ∧ Outside δ s s' ∧ TakenBack s s' δ
    | .error e s' => ¬ s.Revertible δ ∧ s' = s ∧ ∃ reason, e = .undoInconsistency height reason := by
  rw [revert_eq]
  cases h : s.reverted height δ with
  | ok s' =>
    rw [Edit.ofAnswer_of_ok h]
    exact reverted_outside h
  | error e =>
    rw [Edit.ofAnswer_of_error h]
    refine ⟨fun hrevertible ↦ ?_, rfl, reverted_error h⟩
    obtain ⟨s', hok⟩ := hrevertible.exists_reverted height
    cases h.symm.trans hok

end GameState

end MiningGame
