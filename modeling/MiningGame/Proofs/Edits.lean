import MiningGame.Proofs.Changes

/-!
# Edits that leave no trace

An edit may change something before it fails. Those that take changes back do not, or undo it by
failing: they put in place what is worked out beside the original, or fail and leave it as it was
(`Edit.ofAnswer`). This passes from the edit of a part to that of the whole. The critical ones are
those that first list a resource, or make a pile, and check the sum afterwards. They are without a
trace since a sum that starts from nothing is never too large (`Edit.entry_ofAnswer`).
-/

namespace MiningGame

/-! ## Edits from answers -/

namespace Edit

variable {ε ε' σ τ κ α : Type} [Ranked κ]

/-- The edit that puts an answer in place, or fails and leaves everything as it was. -/
def ofAnswer (f : σ → Except ε σ) : Edit ε σ Unit := fun s ↦
  match f s with
  | .ok s' => .ok () s'
  | .error x => .error x s

theorem ofAnswer_of_ok {f : σ → Except ε σ} {s s' : σ} (h : f s = .ok s') :
    ofAnswer f s = .ok () s' := by
  unfold ofAnswer
  rw [h]

theorem ofAnswer_of_error {f : σ → Except ε σ} {s : σ} {x : ε} (h : f s = .error x) :
    ofAnswer f s = .error x s := by
  unfold ofAnswer
  rw [h]

/-- An edit is told by what it answers where it succeeds and where it fails. -/
theorem eq_ofAnswer {e : Edit ε σ Unit} {f : σ → Except ε σ}
    (hok : ∀ s s', f s = .ok s' → e s = .ok () s')
    (herror : ∀ s x, f s = .error x → e s = .error x s) : e = ofAnswer f := by
  funext s
  cases hf : f s with
  | ok s' => rw [ofAnswer_of_ok hf, hok s s' hf]
  | error x => rw [ofAnswer_of_error hf, herror s x hf]

theorem part_ofAnswer {get : σ → τ} {set : σ → τ → σ} (hset : ∀ s, set s (get s) = s)
    (cause : ε' → ε) (f : τ → Except ε' τ) :
    part get set cause (ofAnswer f) =
      ofAnswer fun s ↦ ((f (get s)).map (set s)).mapError cause := by
  apply eq_ofAnswer
  · intro s s' h
    cases hf : f (get s) with
    | ok t =>
      rw [hf] at h
      cases h
      rw [part, ofAnswer_of_ok hf]
    | error x =>
      rw [hf] at h
      cases h
  · intro s x h
    cases hf : f (get s) with
    | ok t =>
      rw [hf] at h
      cases h
    | error y =>
      rw [hf] at h
      cases h
      rw [part, ofAnswer_of_error hf]
      simp only [hset]

theorem existing_ofAnswer (k : κ) (absent : ε) (f : α → Except ε α) :
    existing k absent (ofAnswer f) = ofAnswer fun t : Table κ α ↦
      match t.get? k with
      | none => .error absent
      | some v => (f v).map (t.insert k) := by
  funext t
  cases hget : t.get? k with
  | none => simp only [existing, ofAnswer, hget]
  | some v =>
    cases hf : f v with
    | ok v' => simp only [existing, ofAnswer, hget, hf, Except.map]
    | error x =>
      have hself : t.insert k v = t := Table.set_eq_self (v := some v) hget
      simp only [existing, ofAnswer, hget, hf, Except.map, hself]

/-- Where the edit of a fresh entry cannot fail, a failure leaves no fresh entry. -/
theorem entry_ofAnswer (k : κ) {start : α} {f : α → Except ε α} {v₀ : α}
    (hstart : f start = .ok v₀) :
    entry k start (ofAnswer f) = ofAnswer fun t : Table κ α ↦
      (f ((t.get? k).getD start)).map (t.insert k) := by
  funext t
  cases hf : f ((t.get? k).getD start) with
  | ok v => simp only [entry, ofAnswer, hf, Except.map]
  | error x =>
    cases hget : t.get? k with
    | none =>
      rw [hget, Option.getD_none, hstart] at hf
      cases hf
    | some v =>
      have hself : t.insert k v = t := Table.set_eq_self (v := some v) hget
      rw [hget, Option.getD_some] at hf
      simp only [entry, ofAnswer, hget, Option.getD_some, hf, Except.map, hself]

theorem raise_eq (amount : UInt64) (overflow : ε) :
    raise amount overflow = ofAnswer fun x ↦
      match Word.add? x amount with
      | none => .error overflow
      | some total => .ok total := by
  funext x
  cases hsum : Word.add? x amount <;> simp only [raise, ofAnswer, hsum]

theorem get_bind (f : σ → Edit ε σ α) (s : σ) : (get >>= f) s = f s s := rfl

end Edit

/-! ## Amounts -/

namespace Inventory

theorem raise_eq (resource : Resource) (amount : UInt64) :
    raise resource amount = Edit.ofAnswer fun b ↦ add b resource amount := by
  funext b
  by_cases hzero : amount = 0
  · have hsame : add b resource amount = .ok b := by rw [add, if_pos hzero]
    rw [raise, if_pos hzero, Edit.ofAnswer_of_ok hsame]
    rfl
  · have hstart : Word.add? 0 amount = some amount := Word.add?_eq_some_iff.2 (by simp)
    rw [raise, if_neg hzero, Edit.raise_eq, Edit.entry_ofAnswer resource (by rw [hstart])]
    simp only [Edit.ofAnswer, add, if_neg hzero, Bundle.amount]
    cases Word.add? ((b.get? resource).getD 0) amount <;> rfl

theorem lower_eq (resource : Resource) (amount : UInt64) :
    lower resource amount = Edit.ofAnswer fun b ↦ remove b resource amount := by
  funext b
  rw [lower, Edit.get_bind]
  simp only [Edit.ofAnswer, remove]
  cases Word.sub? (b.amount resource) amount with
  | none => rfl
  | some left => by_cases hleft : left = 0 <;> simp only [hleft] <;> rfl

end Inventory

/-! ## The roster -/

namespace Roster

theorem uncreate_eq (id : CharacterId) :
    uncreate id = Edit.ofAnswer fun r ↦ r.restoreCreated id := by
  funext r
  rw [uncreate, Edit.get_bind]
  by_cases hlast : id.next? = some r.nextId
  · simp only [Edit.ofAnswer, restoreCreated, if_neg (not_not_intro hlast), find]
    cases hget : r.get? id with
    | none =>
      -- Nobody is removed before the failure.
      have hgone : r.characters.erase id = r.characters := Table.set_eq_self (v := none) hget
      rw [hgone]
      rfl
    | some c => rfl
  · simp only [Edit.ofAnswer, restoreCreated, if_pos hlast]
    rfl

theorem edit_ofAnswer (id : CharacterId) (f : Character → Except CharacterError Character) :
    edit id (Edit.ofAnswer f) = Edit.ofAnswer fun r ↦ do
      let c ← r.find id
      let c' ← f c
      return r.store id c' := by
  rw [edit, Edit.existing_ofAnswer, Edit.part_ofAnswer (fun _ ↦ rfl)]
  congr 1
  funext r
  rw [find, get?]
  cases r.characters.get? id with
  | none => rfl
  | some c =>
    rw [ok_bind]
    cases hf : f c <;> simp only [hf] <;> rfl

theorem setBack_eq {α : Type} (part : CharacterPart α) (id : CharacterId) (previous : α) :
    setBack part id previous = Edit.ofAnswer fun r ↦ r.putBack part id previous :=
  edit_ofAnswer id fun c ↦ .ok (part.set c previous)

theorem editInventory_ofAnswer (id : CharacterId) (f : Bundle → Except CharacterError Bundle) :
    editInventory id (Edit.ofAnswer f) = Edit.ofAnswer fun r ↦ do
      let c ← r.find id
      let inventory ← f c.inventory
      return r.store id { c with inventory := inventory } := by
  rw [editInventory, Edit.part_ofAnswer (fun _ ↦ rfl), edit_ofAnswer]
  congr 1
  funext r
  congr 1
  funext c
  cases hf : f c.inventory <;> rfl

theorem uncredit_eq (id : CharacterId) (resource : Resource) (amount : UInt64) :
    uncredit id resource amount = Edit.ofAnswer fun r ↦ r.restoreCredited id resource amount := by
  rw [uncredit, Inventory.lower_eq]
  exact editInventory_ofAnswer id fun b ↦ Inventory.remove b resource amount

theorem undebit_eq (id : CharacterId) (resource : Resource) (amount : UInt64) :
    undebit id resource amount = Edit.ofAnswer fun r ↦ r.restoreDebited id resource amount := by
  rw [undebit, Inventory.raise_eq]
  exact editInventory_ofAnswer id fun b ↦ Inventory.add b resource amount

end Roster

/-! ## Deposits -/

namespace Deposits

theorem unassign_eq (region : RegionId) (previous : Option RegionRecord) (resource : Resource)
    (amount : UInt64) : unassign region previous resource amount =
      Edit.ofAnswer fun d ↦ d.restoreProspected region previous resource amount := by
  funext d
  unfold unassign
  rw [Edit.get_bind]
  cases hrecord : d.record? region with
  | none =>
    simp only [Edit.ofAnswer, restoreProspected, hrecord]
    rfl
  | some current =>
    by_cases hmatch : current.resource ≠ some resource ∨ current.remaining ≠ amount
    · simp only [Edit.ofAnswer, restoreProspected, hrecord, if_pos hmatch]
      rfl
    · simp only [Edit.ofAnswer, restoreProspected, hrecord, if_neg hmatch]
      cases Word.sub? (d.prospected.amount resource) amount with
      | none => rfl
      | some total => by_cases htotal : total = 0 <;> cases previous <;> simp only [htotal] <;> rfl

theorem refill_eq (region : RegionId) (resource : Resource) (amount : UInt64) :
    refill region resource amount = Edit.ofAnswer fun record ↦
      if record.resource.any (· ≠ resource) then .error (.regionMismatch region .typeDiffers)
      else match Word.add? record.remaining amount with
        | none => .error .arithmeticOverflow
        | some left => .ok { record with remaining := left, resource := some resource } := by
  funext record
  rw [refill, Edit.get_bind]
  by_cases hdiffers : record.resource.any (· ≠ resource) = true
  · simp only [Edit.ofAnswer, if_pos hdiffers]
    rfl
  · simp only [Edit.ofAnswer, if_neg hdiffers]
    cases Word.add? record.remaining amount <;> rfl

theorem unextract_eq (region : RegionId) (resource : Resource) (amount : UInt64) :
    unextract region resource amount =
      Edit.ofAnswer fun d ↦ d.restoreExtracted region resource amount := by
  rw [unextract, refill_eq, Edit.existing_ofAnswer, Edit.part_ofAnswer fun _ ↦ rfl]
  congr 1
  funext d
  cases hrecord : d.regions.get? region with
  | none =>
    simp only [restoreExtracted, record?, hrecord]
    rfl
  | some record =>
    by_cases hdiffers : record.resource.any (· ≠ resource) = true
    · simp only [restoreExtracted, record?, hrecord, if_pos hdiffers]
      rfl
    · simp only [restoreExtracted, record?, hrecord, if_neg hdiffers]
      cases Word.add? record.remaining amount <;> rfl

end Deposits

/-! ## Ground loot -/

namespace GroundLoot

theorem raise_eq (position : Coord) (resource : Resource) (amount : UInt64) :
    raise position resource amount =
      Edit.ofAnswer fun l ↦ l.add position resource amount := by
  have hstart : Word.add? 0 amount = some amount := Word.add?_eq_some_iff.2 (by simp)
  rw [raise, Edit.raise_eq, Edit.entry_ofAnswer resource (by rw [hstart]),
    Edit.entry_ofAnswer position (by rw [Table.get?_empty, Option.getD_none, hstart]; rfl),
    Edit.part_ofAnswer fun _ ↦ rfl]
  congr 1
  funext l
  unfold add amountAt pileAt Bundle.amount
  cases Word.add? ((((l.piles.get? position).getD ∅).get? resource).getD 0) amount <;> rfl

theorem clear_insert (l : GroundLoot) (position : Coord) (pile : Bundle) :
    clear position ⟨l.piles.insert position pile⟩ = .ok () (l.setPile position pile) := by
  have hpile : pileAt ⟨l.piles.insert position pile⟩ position = pile := by
    rw [pileAt, Table.get?_insert_self, Option.getD_some]
  have herase : (l.piles.insert position pile).erase position = l.piles.erase position :=
    Table.set_set l.piles position (some pile) none
  rw [clear, Edit.get_bind, hpile, setPile]
  by_cases hempty : pile.isEmpty = true
  · rw [if_pos hempty, if_pos hempty, ← herase]
    rfl
  · rw [if_neg hempty, if_neg hempty]
    rfl

theorem lower_eq (position : Coord) (resource : Resource) (amount : UInt64) :
    lower position resource amount =
      Edit.ofAnswer fun l ↦ l.remove position resource amount := by
  funext l
  unfold lower
  rw [Edit.get_bind]
  simp only [Edit.ofAnswer, remove]
  cases Word.sub? (l.amountAt position resource) amount with
  | none => rfl
  | some left =>
    cases l.piles.get? position with
    | none => rfl
    | some pile =>
      by_cases hleft : left = 0
      · simp only [if_pos hleft]
        exact clear_insert l position _
      · simp only [if_neg hleft]
        exact clear_insert l position _

end GroundLoot

/-! ## The state -/

namespace GameState

theorem inRoster_ofAnswer (height : UInt64) (f : Roster → Except CharacterError Roster) :
    inRoster height (Edit.ofAnswer f) =
      Edit.ofAnswer fun s ↦ s.withRoster height (f s.roster) := by
  rw [inRoster, inTable, Edit.part_ofAnswer fun _ ↦ rfl]
  congr 1
  funext s
  cases f s.roster <;> rfl

theorem inDeposits_ofAnswer (height : UInt64) (f : Deposits → Except WorldError Deposits) :
    inDeposits height (Edit.ofAnswer f) =
      Edit.ofAnswer fun s ↦ s.withDeposits height (f s.deposits) := by
  rw [inDeposits, inTable, Edit.part_ofAnswer fun _ ↦ rfl]
  congr 1
  funext s
  cases f s.deposits <;> rfl

theorem inLoot_ofAnswer (height : UInt64) (f : GroundLoot → Except WorldError GroundLoot) :
    inLoot height (Edit.ofAnswer f) = Edit.ofAnswer fun s ↦ s.withLoot height (f s.loot) := by
  rw [inLoot, inTable, Edit.part_ofAnswer fun _ ↦ rfl]
  congr 1
  funext s
  cases f s.loot <;> rfl

/-- A delta is either reverted as worked out, or nothing is changed. -/
theorem revert_eq (height : UInt64) (δ : UndoDelta) :
    revert height δ = Edit.ofAnswer fun s ↦ s.reverted height δ := by
  cases δ with
  | characterCreated id =>
    rw [revert, Roster.uncreate_eq]
    exact inRoster_ofAnswer height _
  | miningStatus id previous =>
    rw [revert, Roster.setBack_eq]
    exact inRoster_ofAnswer height _
  | waypoints id previous =>
    rw [revert, Roster.setBack_eq]
    exact inRoster_ofAnswer height _
  | position id previous =>
    rw [revert, Roster.setBack_eq]
    exact inRoster_ofAnswer height _
  | inventoryCredited id resource amount =>
    rw [revert, Roster.uncredit_eq]
    exact inRoster_ofAnswer height _
  | inventoryDebited id resource amount =>
    rw [revert, Roster.undebit_eq]
    exact inRoster_ofAnswer height _
  | regionProspected region previous resource amount =>
    rw [revert, Deposits.unassign_eq]
    exact inDeposits_ofAnswer height _
  | regionExtracted region resource amount =>
    rw [revert, Deposits.unextract_eq]
    exact inDeposits_ofAnswer height _
  | lootDropped position resource amount =>
    rw [revert, GroundLoot.lower_eq]
    exact inLoot_ofAnswer height _
  | lootPickedUp position resource amount =>
    rw [revert, GroundLoot.raise_eq]
    exact inLoot_ofAnswer height _

end GameState

end MiningGame
