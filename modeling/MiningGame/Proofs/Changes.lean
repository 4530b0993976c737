import MiningGame.Proofs.Amounts
import MiningGame.State.Basic

/-!
# What can change

Whatever a block does is a sequence of changes of ten kinds, each recorded by one delta. The three
tables have their kinds of change (`Roster.Change`, `Deposits.Change`, `GroundLoot.Change`), and a
change of the state is a change of one of them (`GameState.Change`). Every operation is a history
of such changes whose deltas are the ones it records.
-/

namespace MiningGame

theorem ok_bind {ε α β : Type} (a : α) (f : α → Except ε β) : (Except.ok a >>= f) = f a := rfl

theorem bind_eq_ok_iff {ε α β : Type} {x : Except ε α} {f : α → Except ε β} {b : β} :
    (x >>= f) = .ok b ↔ ∃ a, x = .ok a ∧ f a = .ok b := by
  cases x with
  | ok a =>
    constructor
    · intro h
      exact ⟨a, rfl, h⟩
    · rintro ⟨a', ha, h⟩
      cases ha
      exact h
  | error e =>
    constructor
    · intro h
      cases h
    · rintro ⟨a, ha, -⟩
      cases ha

/-! ## Histories -/

/-- Changes one after the other, with the deltas that record them, oldest first. -/
inductive History {σ : Type} (R : σ → UndoDelta → σ → Prop) : σ → List UndoDelta → σ → Prop
  | nil (s : σ) : History R s [] s
  | cons {s s' s'' : σ} {δ : UndoDelta} {δs : List UndoDelta} (first : R s δ s')
      (rest : History R s' δs s'') : History R s (δ :: δs) s''

namespace History

variable {σ τ : Type} {R : σ → UndoDelta → σ → Prop} {s s' s'' : σ} {δs δs' : List UndoDelta}

theorem single {δ : UndoDelta} (h : R s δ s') : History R s [δ] s' := .cons h (.nil s')

theorem append (h : History R s δs s') (h' : History R s' δs' s'') :
    History R s (δs ++ δs') s'' := by
  induction h with
  | nil => exact h'
  | cons first _ ih => exact .cons first (ih h')

theorem map {R' : τ → UndoDelta → τ → Prop} {f : σ → τ}
    (hf : ∀ a δ b, R a δ b → R' (f a) δ (f b)) (h : History R s δs s') :
    History R' (f s) δs (f s') := by
  induction h with
  | nil => exact .nil _
  | cons first _ ih => exact .cons (hf _ _ _ first) ih

/-- What every single change keeps is kept by a history. -/
theorem keeps {I : σ → Prop} (hI : ∀ a δ b, R a δ b → I a → I b) (h : History R s δs s')
    (hs : I s) : I s' := by
  induction h with
  | nil => exact hs
  | cons first _ ih => exact ih (hI _ _ _ first hs)

end History

/-! ## The roster -/

/-- A change of the roster and its delta. -/
inductive Roster.Change : Roster → UndoDelta → Roster → Prop
  | create {r : Roster} {next : CharacterId} {owner name : String} {position : Coord}
      (fresh : r.toList.any (fun c ↦ c.owner == owner && c.name == name) = false)
      (following : r.nextId.next? = some next) :
      Change r (.characterCreated r.nextId)
        ⟨r.characters.insert r.nextId (.spawn r.nextId owner name position), next⟩
  | mining {r : Roster} {id : CharacterId} {c : Character} {status : MiningStatus}
      (found : r.get? id = some c) (changed : c.mining ≠ status) :
      Change r (.miningStatus id c.mining) (r.store id { c with mining := status })
  | waypoints {r : Roster} {id : CharacterId} {c : Character} {waypoints : List Coord}
      (found : r.get? id = some c) (changed : c.waypoints ≠ waypoints) :
      Change r (.waypoints id c.waypoints) (r.store id { c with waypoints := waypoints })
  | position {r : Roster} {id : CharacterId} {c : Character} {position : Coord}
      (found : r.get? id = some c) (changed : c.position ≠ position) :
      Change r (.position id c.position) (r.store id { c with position := position })
  | credit {r : Roster} {id : CharacterId} {c : Character} {resource : Resource}
      {amount total : UInt64} (found : r.get? id = some c) (positive : amount ≠ 0)
      (sum : Word.add? (c.inventory.amount resource) amount = some total) :
      Change r (.inventoryCredited id resource amount)
        (r.store id { c with inventory := c.inventory.withAmount resource total })
  | debit {r : Roster} {id : CharacterId} {c : Character} {resource : Resource}
      {amount left : UInt64} (found : r.get? id = some c) (positive : amount ≠ 0)
      (difference : Word.sub? (c.inventory.amount resource) amount = some left) :
      Change r (.inventoryDebited id resource amount)
        (r.store id { c with inventory := c.inventory.withAmount resource left })

/-- An operation on the roster does nothing but what its deltas say. -/
def Roster.Logs {α : Type} (f : Roster → Except CharacterError (Recorded Roster α)) : Prop :=
  ∀ r out, f r = .ok out → History Roster.Change r out.deltas out.state

namespace Roster

variable {r r' : Roster} {id : CharacterId} {c : Character}

theorem find_eq_ok_iff : r.find id = .ok c ↔ r.get? id = some c := by
  unfold find
  cases hget : r.get? id with
  | none => simp
  | some c' => simp

theorem create_logs (owner name : String) (position : Coord) :
    Logs fun r ↦ r.create owner name position := by
  intro r out h
  simp only [create] at h
  split at h
  · cases h
  · next hfresh =>
    split at h
    · cases h
    · next next hnext =>
      cases h
      exact .single (.create (Bool.not_eq_true _ ▸ hfresh) hnext)

theorem replace_logs {α : Type} [DecidableEq α] {part : CharacterPart α} {value : α}
    (hchange : ∀ r c, r.get? id = some c → part.get c ≠ value →
      Change r (part.delta id (part.get c)) (r.store id (part.set c value))) :
    Logs fun r ↦ r.replace part id value := by
  intro r out h
  obtain ⟨c, hfind, h⟩ := bind_eq_ok_iff.1 h
  split at h
  · cases h
    exact .nil r
  · next hne =>
    cases h
    exact .single (hchange r c (find_eq_ok_iff.1 hfind) hne)

theorem setMining_logs (id : CharacterId) (status : MiningStatus) :
    Logs fun r ↦ r.setMining id status := replace_logs fun _ _ ↦ .mining

theorem setWaypoints_logs (id : CharacterId) (waypoints : List Coord) :
    Logs fun r ↦ r.setWaypoints id waypoints := replace_logs fun _ _ ↦ .waypoints

theorem setPosition_logs (id : CharacterId) (position : Coord) :
    Logs fun r ↦ r.setPosition id position := replace_logs fun _ _ ↦ .position

theorem credit_logs (id : CharacterId) (resource : Resource) (amount : UInt64) :
    Logs fun r ↦ r.credit id resource amount := by
  intro r out h
  simp only [credit] at h
  split at h
  · cases h
    exact .nil r
  · next hpos =>
    obtain ⟨c, hfind, h⟩ := bind_eq_ok_iff.1 h
    obtain ⟨inventory, hadd, h⟩ := bind_eq_ok_iff.1 h
    obtain ⟨total, hsum, rfl⟩ := (Inventory.add_eq_ok_iff hpos).1 hadd
    cases h
    exact .single (.credit (find_eq_ok_iff.1 hfind) hpos hsum)

theorem debit_logs (id : CharacterId) (resource : Resource) (amount : UInt64) :
    Logs fun r ↦ r.debit id resource amount := by
  intro r out h
  simp only [debit] at h
  split at h
  · cases h
    exact .nil r
  · next hpos =>
    obtain ⟨c, hfind, h⟩ := bind_eq_ok_iff.1 h
    obtain ⟨inventory, hremove, h⟩ := bind_eq_ok_iff.1 h
    obtain ⟨left, hdiff, rfl⟩ := Inventory.remove_eq_ok_iff.1 hremove
    cases h
    exact .single (.debit (find_eq_ok_iff.1 hfind) hpos hdiff)

theorem startMining_logs (grid : Grid) (deposits : Deposits) (id : CharacterId)
    (region : RegionId) : Logs fun r ↦ r.startMining grid deposits id region := by
  intro r out h
  obtain ⟨c, -, h⟩ := bind_eq_ok_iff.1 h
  split at h
  · cases h
  · exact setMining_logs id _ r out h

theorem stopMining_logs (id : CharacterId) : Logs fun r ↦ r.stopMining id :=
  setMining_logs id .idle

theorem stopAll_logs (ids : List CharacterId) : Logs fun r ↦ r.stopAll ids := by
  induction ids with
  | nil =>
    intro r out h
    cases h
    exact .nil r
  | cons id rest ih =>
    intro r out h
    obtain ⟨one, hone, h⟩ := bind_eq_ok_iff.1 h
    obtain ⟨others, hothers, h⟩ := bind_eq_ok_iff.1 h
    cases h
    exact (stopMining_logs id r one hone).append (ih one.state others hothers)

theorem stopRegion_logs (region : RegionId) : Logs fun r ↦ r.stopRegion region := by
  intro r out h
  obtain ⟨stopped, hstopped, h⟩ := bind_eq_ok_iff.1 h
  cases h
  exact stopAll_logs _ r stopped hstopped

end Roster

/-! ## Deposits -/

/-- A change of the deposits and its delta. -/
inductive Deposits.Change : Deposits → UndoDelta → Deposits → Prop
  | assign {d : Deposits} {region : RegionId} {resource : Resource} {amount total : UInt64}
      {prospection : Prospection} (vacant : d.resource? region = none) (positive : amount ≠ 0)
      (sum : Word.add? (d.prospected.amount resource) amount = some total) :
      Change d (.regionProspected region (d.record? region) resource amount)
        ⟨d.regions.insert region ⟨some resource, amount, prospection⟩,
          d.prospected.withAmount resource total⟩
  | extract {d : Deposits} {region : RegionId} {record : RegionRecord} {resource : Resource}
      {taken : UInt64} (found : d.record? region = some record)
      (deposit : record.resource = some resource) (positive : taken ≠ 0)
      (enough : taken.toNat ≤ record.remaining.toNat) :
      Change d (.regionExtracted region resource taken)
        { d with regions := d.regions.insert region (record.without taken) }

/-- An operation on the deposits does nothing but what its deltas say. -/
def Deposits.Logs {α : Type} (f : Deposits → Except WorldError (Recorded Deposits α)) : Prop :=
  ∀ d out, f d = .ok out → History Deposits.Change d out.deltas out.state

namespace Deposits

theorem assign_history {d : Deposits} {region : RegionId} {resource : Resource} {amount : UInt64}
    {prospection : Prospection} {out : Recorded Deposits Unit}
    (h : d.assign region resource amount prospection = .ok out) :
    History Change d out.deltas out.state := by
  simp only [assign] at h
  split at h
  · cases h
  · next hvacant =>
    split at h
    · cases h
    · next hpos =>
      split at h
      · cases h
      · next total hsum =>
        cases h
        rw [Bundle.insert_eq_withAmount _ _ (Word.add?_ne_zero hsum hpos)]
        exact .single (.assign hvacant hpos hsum)

theorem assign_logs (region : RegionId) (resource : Resource) (amount : UInt64)
    (prospection : Prospection) : Logs fun d ↦ d.assign region resource amount prospection :=
  fun _ _ ↦ assign_history

theorem extract_history (d : Deposits) (region : RegionId) (amount : UInt64) :
    History Change d (d.extract region amount).deltas (d.extract region amount).state := by
  unfold extract
  split
  · exact .nil d
  · next record hrecord =>
    split
    · exact .nil d
    · next resource hresource =>
      simp only
      split
      · exact .nil d
      · next hpos =>
        have hle : (min amount record.remaining).toNat ≤ record.remaining.toNat :=
          Word.toNat_min_le_right _ _
        exact .single (.extract hrecord hresource hpos hle)

theorem extract_logs (region : RegionId) (amount : UInt64) :
    Logs fun d ↦ .ok (d.extract region amount) := by
  intro d out h
  cases h
  exact d.extract_history region amount

end Deposits

/-! ## Ground loot -/

/-- A change of the ground loot and its delta. -/
inductive GroundLoot.Change : GroundLoot → UndoDelta → GroundLoot → Prop
  | drop {l : GroundLoot} {position : Coord} {resource : Resource} {amount total : UInt64}
      (positive : amount ≠ 0)
      (sum : Word.add? (l.amountAt position resource) amount = some total) :
      Change l (.lootDropped position resource amount)
        (l.setPile position ((l.pileAt position).withAmount resource total))
  | pickUp {l : GroundLoot} {position : Coord} {resource : Resource} {amount left : UInt64}
      (positive : amount ≠ 0)
      (difference : Word.sub? (l.amountAt position resource) amount = some left) :
      Change l (.lootPickedUp position resource amount)
        (l.setPile position ((l.pileAt position).withAmount resource left))

/-- An operation on the ground loot does nothing but what its deltas say. -/
def GroundLoot.Logs {α : Type} (f : GroundLoot → Except WorldError (Recorded GroundLoot α)) :
    Prop :=
  ∀ l out, f l = .ok out → History GroundLoot.Change l out.deltas out.state

namespace GroundLoot

theorem dropAt_history {l : GroundLoot} {position : Coord} {resource : Resource}
    {amount : UInt64} {out : Recorded GroundLoot Unit}
    (h : l.dropAt position resource amount = .ok out) :
    History Change l out.deltas out.state := by
  simp only [dropAt] at h
  split at h
  · cases h
    exact .nil l
  · next hpos =>
    obtain ⟨l', hadd, h⟩ := bind_eq_ok_iff.1 h
    obtain ⟨total, hsum, rfl⟩ := (add_eq_ok_iff hpos).1 hadd
    cases h
    exact .single (.drop hpos hsum)

theorem pickUp_history (l : GroundLoot) (position : Coord) (resource : Resource)
    (requested : UInt64) :
    History Change l (l.pickUp position resource requested).deltas
      (l.pickUp position resource requested).state := by
  simp only [pickUp]
  split
  · exact .nil l
  · next hpos =>
    split
    · exact .nil l
    · next l' hremove =>
      obtain ⟨left, hdiff, rfl⟩ := remove_eq_ok_iff.1 hremove
      exact .single (.pickUp hpos hdiff)

theorem dropAt_logs (position : Coord) (resource : Resource) (amount : UInt64) :
    Logs fun l ↦ l.dropAt position resource amount := fun _ _ ↦ dropAt_history

theorem pickUp_logs (position : Coord) (resource : Resource) (requested : UInt64) :
    Logs fun l ↦ .ok (l.pickUp position resource requested) := by
  intro l out h
  cases h
  exact l.pickUp_history position resource requested

end GroundLoot

/-! ## The state -/

/-- A change of the state and its delta. -/
inductive GameState.Change : GameState → UndoDelta → GameState → Prop
  | roster {s : GameState} {r : Roster} {δ : UndoDelta} (change : Roster.Change s.roster δ r) :
      Change s δ { s with roster := r }
  | deposits {s : GameState} {d : Deposits} {δ : UndoDelta}
      (change : Deposits.Change s.deposits δ d) : Change s δ { s with deposits := d }
  | loot {s : GameState} {l : GroundLoot} {δ : UndoDelta}
      (change : GroundLoot.Change s.loot δ l) : Change s δ { s with loot := l }

end MiningGame
