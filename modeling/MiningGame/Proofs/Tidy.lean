import MiningGame.Proofs.Runs

/-!
# Tidy states

Beside well-formedness every change keeps two more properties of the tables: a region record names
a type exactly while units are left, and the numbers of the characters are those from one up to the
next one, without gaps. They make up tidiness, which therefore holds of every state of a run
(`Trail.Sound.tidy`), and the grid never changes.
-/

namespace MiningGame

/-- The record names a type exactly while units are left. -/
def RegionRecord.Typed (r : RegionRecord) : Prop := r.resource.isSome ↔ r.remaining ≠ 0

def Deposits.Typed (d : Deposits) : Prop := ∀ region r, d.record? region = some r → r.Typed

instance (r : RegionRecord) : Decidable r.Typed :=
  inferInstanceAs (Decidable (r.resource.isSome ↔ r.remaining ≠ 0))

instance (d : Deposits) : Decidable d.Typed :=
  decidable_of_iff (∀ e ∈ d.regions.entries, e.2.Typed)
    (Table.forall_get?_iff (t := d.regions) (P := fun _ r ↦ r.Typed)).symm

/-- The numbers given out are those from one up to the next one. -/
structure Roster.Dense (r : Roster) : Prop where
  next_pos : 0 < r.nextId.value.toNat
  exists_iff : ∀ id, (∃ c, r.get? id = some c) ↔
    0 < id.value.toNat ∧ id.value.toNat < r.nextId.value.toNat

/-- The state is well-formed, its records are typed and its numbers have no gaps. -/
structure GameState.Tidy (s : GameState) : Prop where
  wellFormed : s.WellFormed
  typed : s.deposits.Typed
  dense : s.roster.Dense

namespace RegionRecord

theorem typed_iff {r : RegionRecord} : r.Typed ↔ (r.resource = none ↔ r.remaining = 0) := by
  cases hresource : r.resource <;> by_cases hzero : r.remaining = 0 <;>
    simp [Typed, hresource, hzero]

theorem typed_some (resource : Resource) {amount : UInt64} (h : amount ≠ 0)
    (prospection : Prospection) : (RegionRecord.mk (some resource) amount prospection).Typed := by
  simp [Typed, h]

theorem typed_without {r : RegionRecord} (h : r.resource.isSome) (taken : UInt64) :
    (r.without taken).Typed := by
  simp only [typed_iff, without]
  split <;> simp_all [Option.isSome_iff_ne_none]

end RegionRecord

namespace Deposits

variable {d : Deposits} {region : RegionId} {r : RegionRecord}

theorem Typed.insert (hd : d.Typed) (region : RegionId) (hr : r.Typed) (prospected : Bundle) :
    Typed ⟨d.regions.insert region r, prospected⟩ := by
  intro region' r' hget
  change (d.regions.insert region r).get? region' = some r' at hget
  rw [Table.get?_insert] at hget
  split at hget
  · cases hget
    exact hr
  · exact hd region' r' hget

theorem Change.typed {d' : Deposits} {δ : UndoDelta} (h : Change d δ d') (hd : d.Typed) :
    d'.Typed := by
  cases h with
  | assign vacant positive sum =>
    exact hd.insert _ (RegionRecord.typed_some _ positive _) _
  | extract found deposit positive enough =>
    exact hd.insert _ (RegionRecord.typed_without (by simp [deposit]) _) _

/-- In typed deposits a region holds something exactly if units are left in it. -/
theorem Typed.remaining_eq_zero_iff (hd : d.Typed) (region : RegionId) :
    d.remaining region = 0 ↔ d.resource? region = none := by
  unfold remaining resource?
  cases hrecord : d.record? region with
  | none => simp
  | some r =>
    have hr := RegionRecord.typed_iff.1 (hd region r hrecord)
    cases hresource : r.resource with
    | none => simp [RegionRecord.deposit?, hresource]
    | some resource =>
      rw [hresource] at hr
      simpa [RegionRecord.deposit?, hresource] using hr

end Deposits

namespace Roster

variable {r r' : Roster} {id : CharacterId}

theorem exists_get?_store {c c' : Character} (found : r.get? id = some c) (id' : CharacterId) :
    (∃ x, (r.store id c').get? id' = some x) ↔ ∃ x, r.get? id' = some x := by
  rw [get?_store]
  split
  · next h => simp [h, found]
  · rfl

theorem Dense.store {c c' : Character} (hr : r.Dense) (found : r.get? id = some c) :
    (r.store id c').Dense where
  next_pos := hr.next_pos
  exists_iff := fun id' ↦ (exists_get?_store found id').trans (hr.exists_iff id')

theorem Dense.create {next : CharacterId} (hr : r.Dense) (hnext : r.nextId.next? = some next)
    (c : Character) : Dense ⟨r.characters.insert r.nextId c, next⟩ := by
  have hsucc := next?_eq_some_iff.1 hnext
  have hpos := hr.next_pos
  refine ⟨by dsimp only; omega, fun id ↦ ?_⟩
  have hold := hr.exists_iff id
  change (∃ x, (r.characters.insert r.nextId c).get? id = some x) ↔ _
  rw [Table.get?_insert]
  by_cases h : id = r.nextId
  · rw [if_pos (rank_inj.2 h), h]
    simp only [Option.some.injEq, exists_eq', true_iff]
    omega
  · have hne : id.value.toNat ≠ r.nextId.value.toNat := fun heq ↦ h (rank_injective heq)
    rw [if_neg (mt rank_inj.1 h)]
    refine hold.trans ?_
    dsimp only
    omega

theorem Change.dense {δ : UndoDelta} (h : Change r δ r') (hr : r.Dense) : r'.Dense := by
  cases h with
  | create fresh following => exact hr.create following _
  | mining found => exact hr.store found
  | waypoints found => exact hr.store found
  | position found => exact hr.store found
  | credit found => exact hr.store found
  | debit found => exact hr.store found

end Roster

namespace GameState

variable {s s' : GameState} {δ : UndoDelta}

theorem tidy_new (grid : Grid) : (GameState.new grid).Tidy where
  wellFormed := wellFormed_new grid
  typed := fun _ _ h ↦ nomatch h
  dense := by
    refine ⟨Nat.one_pos, fun id ↦ ?_⟩
    change (∃ c, (none : Option Character) = some c) ↔ 0 < id.value.toNat ∧ id.value.toNat < 1
    simp
    omega

theorem Change.tidy (h : Change s δ s') (hs : s.Tidy) : s'.Tidy := by
  have hwell := h.wellFormed hs.wellFormed
  cases h with
  | roster change => exact ⟨hwell, hs.typed, change.dense hs.dense⟩
  | deposits change => exact ⟨hwell, change.typed hs.typed, hs.dense⟩
  | loot => exact ⟨hwell, hs.typed, hs.dense⟩

theorem Change.grid (h : Change s δ s') : s'.grid = s.grid := by
  cases h <;> rfl

end GameState

theorem Logged.tidy {p p' : Progress} (h : Logged p p') (hp : p.state.Tidy) : p'.state.Tidy := by
  obtain ⟨δs, -, hhistory⟩ := h
  exact hhistory.keeps (fun _ _ _ ↦ GameState.Change.tidy) hp

theorem Logged.grid {p p' : Progress} (h : Logged p p') : p'.state.grid = p.state.grid := by
  obtain ⟨δs, -, hhistory⟩ := h
  exact hhistory.keeps (I := fun s ↦ s.grid = p.state.grid) (fun _ _ _ hchange hgrid ↦
    hchange.grid.trans hgrid) rfl

section Block

variable {rules : BlockRules} {b : BlockInput} {s s' : GameState} {undo : BlockUndo}

theorem processBlock_logged (h : processBlock rules b s = .ok undo s') (hs : s.WellFormed) :
    Logged ⟨s, .new b.height⟩ ⟨s', undo⟩ := by
  obtain ⟨hrun, -⟩ := processBlock_ok h hs
  exact Turn.logged_of_ok hrun

theorem processBlock_tidy (h : processBlock rules b s = .ok undo s') (hs : s.Tidy) : s'.Tidy :=
  (processBlock_logged h hs.wellFormed).tidy hs

end Block

namespace Trail

variable {rules : BlockRules} {o : Origin} {t : Trail} {branch : List Milestone}

theorem Linked.tidy (h : Linked rules o branch) : (top o branch).state.Tidy := by
  induction h with
  | nil => exact GameState.tidy_new o.grid
  | cons _ processed _ ih => exact processBlock_tidy processed ih

theorem Linked.grid (h : Linked rules o branch) : (top o branch).state.grid = o.grid := by
  induction h with
  | nil => rfl
  | cons _ processed rest ih => exact (processBlock_logged processed rest.wellFormed).grid.trans ih

theorem Sound.tidy (h : t.Sound rules o) : t.node.state.Tidy := by
  rw [h.state_eq]
  exact h.linked.tidy

theorem Sound.grid (h : t.Sound rules o) : t.node.state.grid = o.grid := by
  rw [h.state_eq]
  exact h.linked.grid

end Trail

end MiningGame
