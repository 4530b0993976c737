import MiningGame.Proofs.Edits
import MiningGame.Proofs.Logging

/-!
# Taking changes back

A well-formed state lists no zero amounts and no empty piles, keeps every character under its own
number and has given out no number from the next one on. Changes keep states well-formed, and on a
well-formed state the delta of a change leads exactly back (`GameState.Change.reverted`). So the
deltas of a history, reverted newest first, restore the state in which it began.
-/

namespace MiningGame

/-! ## Well-formed states -/

/-- Characters are kept under their own numbers, all below the next one, and carry no zero
amounts. -/
structure Roster.WellFormed (r : Roster) : Prop where
  own : ∀ id c, r.get? id = some c → c.id = id
  below : ∀ id c, r.get? id = some c → id.value < r.nextId.value
  positive : ∀ id c, r.get? id = some c → c.inventory.Positive

/-- No resource was prospected zero times. -/
def Deposits.WellFormed (d : Deposits) : Prop := d.prospected.Positive

/-- There are neither empty piles nor zero amounts in piles. -/
def GroundLoot.WellFormed (l : GroundLoot) : Prop :=
  ∀ position pile, l.piles.get? position = some pile → pile ≠ ∅ ∧ pile.Positive

/-- All tables are well-formed. -/
structure GameState.WellFormed (s : GameState) : Prop where
  deposits : s.deposits.WellFormed
  roster : s.roster.WellFormed
  loot : s.loot.WellFormed

instance (r : Roster) : Decidable r.WellFormed :=
  decidable_of_iff (∀ e ∈ r.characters.entries,
      e.2.id = e.1 ∧ e.1.value < r.nextId.value ∧ e.2.inventory.Positive) <| by
    refine (Table.forall_get?_iff (t := r.characters) (P := fun id c ↦
      c.id = id ∧ id.value < r.nextId.value ∧ c.inventory.Positive)).symm.trans ?_
    constructor
    · intro h
      exact ⟨fun id c hc ↦ (h id c hc).1, fun id c hc ↦ (h id c hc).2.1,
        fun id c hc ↦ (h id c hc).2.2⟩
    · intro h id c hc
      exact ⟨h.own id c hc, h.below id c hc, h.positive id c hc⟩

instance (d : Deposits) : Decidable d.WellFormed :=
  inferInstanceAs (Decidable d.prospected.Positive)

instance (l : GroundLoot) : Decidable l.WellFormed :=
  decidable_of_iff (∀ e ∈ l.piles.entries, e.2 ≠ ∅ ∧ Bundle.Positive e.2)
    (Table.forall_get?_iff (t := l.piles) (P := fun _ pile ↦ pile ≠ ∅ ∧ pile.Positive)).symm

instance (s : GameState) : Decidable s.WellFormed :=
  decidable_of_iff (s.deposits.WellFormed ∧ s.roster.WellFormed ∧ s.loot.WellFormed)
    ⟨fun h ↦ ⟨h.1, h.2.1, h.2.2⟩, fun h ↦ ⟨h.deposits, h.roster, h.loot⟩⟩

theorem GameState.wellFormed_new (grid : Grid) : (GameState.new grid).WellFormed where
  deposits := Bundle.positive_empty
  roster := ⟨fun _ _ h ↦ (nomatch h), fun _ _ h ↦ (nomatch h), fun _ _ h ↦ (nomatch h)⟩
  loot := fun _ _ h ↦ nomatch h

namespace Roster

variable {r : Roster} {id : CharacterId} {c c' : Character}

theorem get?_store (r : Roster) (id id' : CharacterId) (c : Character) :
    (r.store id c).get? id' = if id' = id then some c else r.get? id' := by
  unfold get? store
  rw [Table.get?_insert]
  by_cases h : id' = id
  · rw [if_pos (rank_inj.2 h), if_pos h]
  · rw [if_neg (mt rank_inj.1 h), if_neg h]

@[simp] theorem find_store (r : Roster) (id : CharacterId) (c : Character) :
    (r.store id c).find id = .ok c :=
  find_eq_ok_iff.2 (by rw [get?_store, if_pos rfl])

@[simp] theorem store_store (r : Roster) (id : CharacterId) (c c' : Character) :
    (r.store id c).store id c' = r.store id c' := by
  unfold store
  congr 1
  exact Table.set_set r.characters id (some c) (some c')

theorem store_self (h : r.get? id = some c) : r.store id c = r := by
  unfold store
  congr 1
  exact Table.set_eq_self (v := some c) h

theorem WellFormed.store (hr : r.WellFormed) (found : r.get? id = some c) (hid : c'.id = c.id)
    (hpos : c'.inventory.Positive) : (r.store id c').WellFormed := by
  refine ⟨?_, ?_, ?_⟩
  · intro id' x hx
    rw [get?_store] at hx
    split at hx
    · next h =>
      cases hx
      rw [hid, hr.own id c found, h]
    · exact hr.own id' x hx
  · intro id' x hx
    rw [get?_store] at hx
    split at hx
    · next h =>
      rw [h]
      exact hr.below id c found
    · exact hr.below id' x hx
  · intro id' x hx
    rw [get?_store] at hx
    split at hx
    · cases hx
      exact hpos
    · exact hr.positive id' x hx

theorem next?_eq_some_iff {next : CharacterId} :
    id.next? = some next ↔ id.value.toNat + 1 = next.value.toNat := by
  unfold CharacterId.next?
  constructor
  · intro h
    obtain ⟨v, hv, rfl⟩ := Option.map_eq_some_iff.1 h
    exact Word.add?_eq_some_iff.1 hv
  · intro h
    exact Option.map_eq_some_iff.2 ⟨next.value, Word.add?_eq_some_iff.2 h, rfl⟩

theorem WellFormed.get?_nextId (hr : r.WellFormed) : r.get? r.nextId = none := by
  cases hget : r.get? r.nextId with
  | none => rfl
  | some c => exact absurd (hr.below _ c hget) (UInt64.lt_irrefl _)

theorem Change.wellFormed {r' : Roster} {δ : UndoDelta} (h : Change r δ r')
    (hr : r.WellFormed) : r'.WellFormed := by
  cases h with
  | @create next owner name position fresh following =>
    -- Only the new character is stored, and the next number moves past it.
    have hnext := next?_eq_some_iff.1 following
    have hcases : ∀ id x, (r.characters.insert r.nextId
        (.spawn r.nextId owner name position)).get? id = some x →
        id = r.nextId ∧ x = .spawn r.nextId owner name position ∨ r.get? id = some x := by
      intro id x hx
      rw [Table.get?_insert] at hx
      split at hx
      · next h => exact .inl ⟨rank_injective h, (Option.some.inj hx).symm⟩
      · exact .inr hx
    refine ⟨?_, ?_, ?_⟩
    · intro id x hx
      rcases hcases id x hx with ⟨rfl, rfl⟩ | hold
      · rfl
      · exact hr.own id x hold
    · intro id x hx
      rw [UInt64.lt_iff_toNat_lt]
      rcases hcases id x hx with ⟨rfl, -⟩ | hold
      · change r.nextId.value.toNat < next.value.toNat
        omega
      · have hbelow := UInt64.lt_iff_toNat_lt.1 (hr.below id x hold)
        change id.value.toNat < next.value.toNat
        omega
    · intro id x hx
      rcases hcases id x hx with ⟨-, rfl⟩ | hold
      · exact Bundle.positive_empty
      · exact hr.positive id x hold
  | mining found =>
    have hpos := hr.positive _ _ found
    exact hr.store found rfl hpos
  | waypoints found =>
    have hpos := hr.positive _ _ found
    exact hr.store found rfl hpos
  | position found =>
    have hpos := hr.positive _ _ found
    exact hr.store found rfl hpos
  | credit found =>
    have hpos := hr.positive _ _ found
    exact hr.store found rfl (hpos.withAmount _ _)
  | debit found =>
    have hpos := hr.positive _ _ found
    exact hr.store found rfl (hpos.withAmount _ _)

theorem restoreCreated_insert {next : CharacterId} (hr : r.WellFormed)
    (hnext : r.nextId.next? = some next) (c : Character) :
    restoreCreated ⟨r.characters.insert r.nextId c, next⟩ r.nextId = .ok r := by
  have hfind : find ⟨r.characters.insert r.nextId c, next⟩ r.nextId = .ok c :=
    find_eq_ok_iff.2 (Table.get?_insert_self r.characters r.nextId c)
  have herase : (r.characters.insert r.nextId c).erase r.nextId = r.characters := by
    change (r.characters.set r.nextId (some c)).set r.nextId none = r.characters
    rw [Table.set_set, Table.set_eq_self hr.get?_nextId]
  unfold restoreCreated
  rw [if_neg (not_not_intro hnext), hfind]
  change Except.ok (Roster.mk ((r.characters.insert r.nextId c).erase r.nextId) r.nextId) = _
  rw [herase]

theorem putBack_store {α : Type} (part : CharacterPart α) (found : r.get? id = some c)
    (value : α) : (r.store id (part.set c value)).putBack part id (part.get c) = .ok r := by
  unfold putBack
  rw [find_store, ok_bind, part.set_get, store_store, store_self found]
  rfl

theorem restoreCredited_store {resource : Resource} {amount total : UInt64}
    (found : r.get? id = some c) (hpos : c.inventory.Positive)
    (hsum : Word.add? (c.inventory.amount resource) amount = some total) :
    (r.store id { c with inventory := c.inventory.withAmount resource total }).restoreCredited
      id resource amount = .ok r := by
  have hamount : (c.inventory.withAmount resource total).amount resource = total := by
    rw [Bundle.amount_withAmount, if_pos rfl]
  have hremove : Inventory.remove (c.inventory.withAmount resource total) resource amount =
      .ok c.inventory := by
    rw [Inventory.remove_eq_ok (by rw [hamount]; exact Word.sub?_of_add? hsum),
      hpos.withAmount_of_eq total rfl]
  unfold restoreCredited
  rw [find_store]
  change (Inventory.remove (c.inventory.withAmount resource total) resource amount >>= fun i ↦
    Except.ok ((r.store id _).store id { c with inventory := i })) = _
  rw [hremove]
  change Except.ok ((r.store id _).store id c) = _
  rw [store_store, store_self found]

theorem restoreDebited_store {resource : Resource} {amount left : UInt64}
    (found : r.get? id = some c) (hpos : c.inventory.Positive) (hamount : amount ≠ 0)
    (hdiff : Word.sub? (c.inventory.amount resource) amount = some left) :
    (r.store id { c with inventory := c.inventory.withAmount resource left }).restoreDebited
      id resource amount = .ok r := by
  have hleft : (c.inventory.withAmount resource left).amount resource = left := by
    rw [Bundle.amount_withAmount, if_pos rfl]
  have hadd : Inventory.add (c.inventory.withAmount resource left) resource amount =
      .ok c.inventory := by
    rw [Inventory.add_eq_ok hamount (by rw [hleft]; exact Word.add?_of_sub? hdiff),
      hpos.withAmount_of_eq left rfl]
  unfold restoreDebited
  rw [find_store]
  change (Inventory.add (c.inventory.withAmount resource left) resource amount >>= fun i ↦
    Except.ok ((r.store id _).store id { c with inventory := i })) = _
  rw [hadd]
  change Except.ok ((r.store id _).store id c) = _
  rw [store_store, store_self found]

end Roster

namespace Deposits

variable {d : Deposits} {region : RegionId}

theorem Change.wellFormed {d' : Deposits} {δ : UndoDelta} (h : Change d δ d')
    (hd : d.WellFormed) : d'.WellFormed := by
  cases h with
  | assign => exact Bundle.Positive.withAmount hd _ _
  | extract => exact hd

theorem restoreProspected_eq_ok {current : RegionRecord} {resource : Resource}
    {amount left : UInt64} (found : d.record? region = some current)
    (hresource : current.resource = some resource) (hremaining : current.remaining = amount)
    (hdiff : Word.sub? (d.prospected.amount resource) amount = some left)
    (previous : Option RegionRecord) :
    d.restoreProspected region previous resource amount =
      .ok ⟨d.regions.set region previous, d.prospected.withAmount resource left⟩ := by
  unfold restoreProspected
  rw [found]
  simp only [hresource, hremaining, ne_eq, not_true_eq_false, or_self, if_false, hdiff,
    Bundle.erase_or_insert_eq_withAmount]
  cases previous <;> rfl

theorem restoreProspected_assign {resource : Resource} {amount total : UInt64}
    {prospection : Prospection} (hd : d.WellFormed)
    (hsum : Word.add? (d.prospected.amount resource) amount = some total) :
    restoreProspected ⟨d.regions.insert region ⟨some resource, amount, prospection⟩,
      d.prospected.withAmount resource total⟩ region (d.record? region) resource amount =
        .ok d := by
  have hamount : (d.prospected.withAmount resource total).amount resource = total := by
    rw [Bundle.amount_withAmount, if_pos rfl]
  have hregions : (d.regions.insert region ⟨some resource, amount, prospection⟩).set region
      (d.record? region) = d.regions := by
    change (d.regions.set region (some _)).set region (d.regions.get? region) = d.regions
    rw [Table.set_set, Table.set_get?]
  have hrecord : record? ⟨d.regions.insert region ⟨some resource, amount, prospection⟩,
      d.prospected.withAmount resource total⟩ region = some ⟨some resource, amount, prospection⟩ :=
    Table.get?_insert_self _ _ _
  rw [restoreProspected_eq_ok hrecord rfl rfl (by rw [hamount]; exact Word.sub?_of_add? hsum),
    hregions, Bundle.Positive.withAmount_of_eq hd total rfl]

theorem restoreExtracted_eq_ok {current : RegionRecord} {resource : Resource}
    {amount total : UInt64} (found : d.record? region = some current)
    (htype : ∀ r, current.resource = some r → r = resource)
    (hsum : Word.add? current.remaining amount = some total) :
    d.restoreExtracted region resource amount =
      .ok ⟨d.regions.insert region ⟨some resource, total, current.prospection⟩,
        d.prospected⟩ := by
  have hany : current.resource.any (· ≠ resource) = false := by
    cases hcurrent : current.resource with
    | none => rfl
    | some r => simp [htype r hcurrent]
  unfold restoreExtracted
  rw [found]
  simp only
  rw [hany, hsum]
  rfl

theorem restoreExtracted_without {record : RegionRecord} {resource : Resource} {taken : UInt64}
    (found : d.record? region = some record) (hresource : record.resource = some resource)
    (henough : taken.toNat ≤ record.remaining.toNat) :
    restoreExtracted { d with regions := d.regions.insert region (record.without taken) }
      region resource taken = .ok d := by
  have htype : ∀ r, (record.without taken).resource = some r → r = resource := by
    intro r hr
    unfold RegionRecord.without at hr
    simp only [hresource] at hr
    split at hr
    · cases hr
    · exact (Option.some.inj hr).symm
  have hsum : Word.add? (record.without taken).remaining taken = some record.remaining := by
    rw [Word.add?_eq_some_iff]
    change (record.remaining - taken).toNat + taken.toNat = record.remaining.toNat
    rw [Word.toNat_sub_of_le henough]
    omega
  have hback : RegionRecord.mk (some resource) record.remaining (record.without taken).prospection =
      record := by
    rw [← hresource]
    rfl
  have hregions : (d.regions.insert region (record.without taken)).insert region record =
      d.regions := by
    change (d.regions.set region (some _)).set region (some record) = d.regions
    rw [Table.set_set, Table.set_eq_self (v := some record) found]
  have hrecord : record? { d with regions := d.regions.insert region (record.without taken) }
      region = some (record.without taken) :=
    Table.get?_insert_self _ _ _
  rw [restoreExtracted_eq_ok hrecord htype hsum, hback]
  simp only [hregions]

end Deposits

namespace GroundLoot

variable {l : GroundLoot} {position : Coord}

theorem WellFormed.pileAt (hl : l.WellFormed) (position : Coord) :
    (l.pileAt position).Positive := by
  unfold GroundLoot.pileAt
  cases hget : l.piles.get? position with
  | none => exact Bundle.positive_empty
  | some pile => exact (hl position pile hget).2

theorem WellFormed.setPile_pileAt (hl : l.WellFormed) (position : Coord) :
    l.setPile position (l.pileAt position) = l :=
  GroundLoot.setPile_pileAt fun h ↦ (hl position ∅ h).1 rfl

theorem WellFormed.setPile (hl : l.WellFormed) (position : Coord) {pile : Bundle}
    (hpile : pile.Positive) : (l.setPile position pile).WellFormed := by
  intro p x hx
  rw [setPile_eq, Table.get?_set] at hx
  split at hx
  · split at hx
    · cases hx
    · next hne =>
      cases hx
      exact ⟨fun h ↦ hne (Table.isEmpty_iff.2 h), hpile⟩
  · exact hl p x hx

theorem Change.wellFormed {l' : GroundLoot} {δ : UndoDelta} (h : Change l δ l')
    (hl : l.WellFormed) : l'.WellFormed := by
  cases h with
  | drop => exact hl.setPile _ ((hl.pileAt _).withAmount _ _)
  | pickUp => exact hl.setPile _ ((hl.pileAt _).withAmount _ _)

theorem amountAt_setPile (l : GroundLoot) (position : Coord) (pile : Bundle)
    (resource : Resource) :
    (l.setPile position pile).amountAt position resource = pile.amount resource := by
  unfold amountAt
  rw [pileAt_setPile_self]

/-- Setting an amount in a pile and setting it back. -/
theorem WellFormed.setPile_back (hl : l.WellFormed) (position : Coord) (resource : Resource)
    (x : UInt64) :
    (l.setPile position ((l.pileAt position).withAmount resource x)).setPile position
      (((l.setPile position ((l.pileAt position).withAmount resource x)).pileAt position).withAmount
        resource (l.amountAt position resource)) = l := by
  have hback := (hl.pileAt position).withAmount_of_eq (r := resource) x
    (y := l.amountAt position resource) rfl
  rw [pileAt_setPile_self, setPile_setPile, hback, hl.setPile_pileAt]

theorem restoreDropped_drop {resource : Resource} {amount total : UInt64} (hl : l.WellFormed)
    (hsum : Word.add? (l.amountAt position resource) amount = some total) :
    (l.setPile position ((l.pileAt position).withAmount resource total)).restoreDropped
      position resource amount = .ok l := by
  have htotal : (l.setPile position ((l.pileAt position).withAmount resource total)).amountAt
      position resource = total := by
    rw [amountAt_setPile, Bundle.amount_withAmount, if_pos rfl]
  unfold restoreDropped
  rw [remove_eq_ok (by rw [htotal]; exact Word.sub?_of_add? hsum), hl.setPile_back]

theorem restorePickedUp_pickUp {resource : Resource} {amount left : UInt64} (hl : l.WellFormed)
    (hamount : amount ≠ 0)
    (hdiff : Word.sub? (l.amountAt position resource) amount = some left) :
    (l.setPile position ((l.pileAt position).withAmount resource left)).restorePickedUp
      position resource amount = .ok l := by
  have hleft : (l.setPile position ((l.pileAt position).withAmount resource left)).amountAt
      position resource = left := by
    rw [amountAt_setPile, Bundle.amount_withAmount, if_pos rfl]
  unfold restorePickedUp
  rw [add_eq_ok hamount (by rw [hleft]; exact Word.add?_of_sub? hdiff), hl.setPile_back]

end GroundLoot

/-! ## The state -/

theorem BlockUndo.revertOn_cons {σ : Type} {revert : Reverter σ} {height : UInt64}
    {δ : UndoDelta} {δs : List UndoDelta} {s s' s'' : σ}
    (hrest : (BlockUndo.mk height δs).revertOn revert s'' = .ok () s')
    (hfirst : revert height δ s' = .ok () s) :
    (BlockUndo.mk height (δ :: δs)).revertOn revert s'' = .ok () s := by
  unfold revertOn at hrest ⊢
  simp only [List.reverse_cons, List.forM_eq_forM, List.forM_append] at hrest ⊢
  change EStateM.bind _ _ s'' = _
  unfold EStateM.bind
  rw [hrest]
  change EStateM.bind _ _ s' = _
  unfold EStateM.bind
  rw [hfirst]
  rfl

namespace GameState

variable {s s' : GameState} {δ : UndoDelta} {δs : List UndoDelta}

theorem Change.wellFormed (h : Change s δ s') (hs : s.WellFormed) : s'.WellFormed := by
  cases h with
  | roster change => exact ⟨hs.deposits, change.wellFormed hs.roster, hs.loot⟩
  | deposits change => exact ⟨change.wellFormed hs.deposits, hs.roster, hs.loot⟩
  | loot change => exact ⟨hs.deposits, hs.roster, change.wellFormed hs.loot⟩

theorem withRoster_ok {r : Roster} {restored : Except CharacterError Roster} (height : UInt64)
    (h : restored = .ok s.roster) : withRoster { s with roster := r } height restored = .ok s := by
  rw [h]
  rfl

theorem withDeposits_ok {d : Deposits} {restored : Except WorldError Deposits} (height : UInt64)
    (h : restored = .ok s.deposits) :
    withDeposits { s with deposits := d } height restored = .ok s := by
  rw [h]
  rfl

theorem withLoot_ok {l : GroundLoot} {restored : Except WorldError GroundLoot} (height : UInt64)
    (h : restored = .ok s.loot) : withLoot { s with loot := l } height restored = .ok s := by
  rw [h]
  rfl

/-- The delta of a change leads back to the state before it. -/
theorem Change.reverted (h : Change s δ s') (hs : s.WellFormed) (height : UInt64) :
    s'.reverted height δ = .ok s := by
  cases h with
  | roster change =>
    cases change with
    | create fresh following =>
      exact withRoster_ok height (Roster.restoreCreated_insert hs.roster following _)
    | mining found => exact withRoster_ok height (Roster.putBack_store .mining found _)
    | waypoints found => exact withRoster_ok height (Roster.putBack_store .waypoints found _)
    | position found => exact withRoster_ok height (Roster.putBack_store .position found _)
    | credit found positive sum =>
      have hpos := hs.roster.positive _ _ found
      exact withRoster_ok height (Roster.restoreCredited_store found hpos sum)
    | debit found positive difference =>
      have hpos := hs.roster.positive _ _ found
      exact withRoster_ok height (Roster.restoreDebited_store found hpos positive difference)
  | deposits change =>
    cases change with
    | assign vacant positive sum =>
      exact withDeposits_ok height (Deposits.restoreProspected_assign hs.deposits sum)
    | extract found deposit positive enough =>
      exact withDeposits_ok height (Deposits.restoreExtracted_without found deposit enough)
  | loot change =>
    cases change with
    | drop positive sum => exact withLoot_ok height (GroundLoot.restoreDropped_drop hs.loot sum)
    | pickUp positive difference =>
      exact withLoot_ok height (GroundLoot.restorePickedUp_pickUp hs.loot positive difference)

theorem wellFormed_of_history (h : History Change s δs s') (hs : s.WellFormed) :
    s'.WellFormed :=
  h.keeps (fun _ _ _ hchange ↦ hchange.wellFormed) hs

/-- The deltas of a history, reverted newest first, lead back to its beginning. -/
theorem revertOn_history (h : History Change s δs s') (hs : s.WellFormed) (height : UInt64) :
    (BlockUndo.mk height δs).revertOn revert s' = .ok () s := by
  induction h with
  | nil => rfl
  | @cons s mid s'' δ δs first rest ih =>
    have hmid := ih (first.wellFormed hs)
    have hfirst : revert height δ mid = .ok () s := by
      rw [revert_eq]
      exact Edit.ofAnswer_of_ok (first.reverted hs height)
    exact BlockUndo.revertOn_cons hmid hfirst

end GameState

end MiningGame
