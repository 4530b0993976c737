import MiningGame.Proofs.Conservation
import MiningGame.Proofs.Tidy
import MiningGame.State.Snapshot

/-!
# Snapshots determine states

A snapshot shows neither the next number nor what was ever prospected, nor the units in a region
without deposit. In tidy states whose resources balance all three can be recovered: the numbers
have no gaps, a record without type holds nothing, and what was prospected is what remains, is
carried and lies on the ground. So two runs on one grid with equal snapshots are in the same state.
-/

namespace MiningGame

/-- Lists with equal images are equal where the map tells their elements apart. -/
theorem eq_of_map_eq {α β : Type} {f : α → β} {l l' : List α}
    (hf : ∀ a ∈ l, ∀ a' ∈ l', f a = f a' → a = a') (h : l.map f = l'.map f) : l = l' := by
  induction l generalizing l' with
  | nil => simpa using h.symm
  | cons a l ih =>
    cases l' with
    | nil => simp at h
    | cons a' l' =>
      obtain ⟨hhead, htail⟩ := List.cons.inj h
      obtain rfl := hf a (by simp) a' (by simp) hhead
      rw [ih (fun b hb b' hb' ↦ hf b (by simp [hb]) b' (by simp [hb'])) htail]

theorem MiningStatus.eq_of_region? {s s' : MiningStatus} (h : s.region? = s'.region?) : s = s' := by
  cases s <;> cases s' <;> simp_all [region?]

theorem Character.eq_of_view {c c' : Character} {rate : UInt64} (h : c.view rate = c'.view rate) :
    c = c' := by
  cases c
  cases c'
  simp only [view, CharacterView.mk.injEq, MiningView.mk.injEq] at h
  obtain ⟨rfl, rfl, rfl, rfl, rfl, ⟨-, -, hregion⟩, rfl⟩ := h
  rw [MiningStatus.eq_of_region? hregion]

theorem RegionRecord.eq_of_view {r r' : RegionRecord} {id id' : RegionId} (hr : r.Typed)
    (hr' : r'.Typed) (h : r.view id = r'.view id') : id = id' ∧ r = r' := by
  obtain ⟨resource, remaining, prospection⟩ := r
  obtain ⟨resource', remaining', prospection'⟩ := r'
  simp only [view, RegionView.mk.injEq] at h
  obtain ⟨rfl, rfl, hdeposit⟩ := h
  rw [typed_iff] at hr hr'
  cases resource with
  | none =>
    -- Without a type the view hides the units, but there are none.
    cases resource' with
    | none => simp_all
    | some _ => simp at hdeposit
  | some _ =>
    cases resource' with
    | none => simp at hdeposit
    | some _ => simp_all

theorem Bundle.Positive.get?_eq {b : Bundle} (hb : b.Positive) (r : Resource) :
    b.get? r = if b.amount r = 0 then none else some (b.amount r) := by
  have hr := hb r
  unfold amount
  cases hget : b.get? r with
  | none => simp
  | some x =>
    have hx : x ≠ 0 := fun h ↦ hr (hget.trans (congrArg some h))
    simp [hx]

/-- Bundles without zero amounts are determined by their amounts. -/
theorem Bundle.Positive.eq_of_amount {b b' : Bundle} (hb : b.Positive) (hb' : b'.Positive)
    (h : ∀ r, b.amount r = b'.amount r) : b = b' :=
  Table.ext_get? fun r ↦ by rw [hb.get?_eq, hb'.get?_eq, h]

namespace Roster

variable {r r' : Roster}

theorem WellFormed.entries_eq (hr : r.WellFormed) :
    r.characters.entries = r.toList.map fun c ↦ (c.id, c) := by
  have hown : ∀ e ∈ r.characters.entries, (e.2.id, e.2) = e := fun e he ↦
    Prod.ext (hr.own e.1 e.2 (Table.get?_eq_some_iff.2 he)) rfl
  unfold toList Table.values
  rw [List.map_map]
  exact ((List.map_congr_left hown).trans (List.map_id _)).symm

theorem Dense.nextId_le (hr : r.Dense) (hr' : r'.Dense) (h : r.characters = r'.characters) :
    r.nextId.value.toNat ≤ r'.nextId.value.toNat := by
  by_contra hlt
  -- The next number of one roster would be given out in the other.
  have hother : ∃ c, r.get? r'.nextId = some c := (hr.exists_iff _).2 ⟨hr'.next_pos, by omega⟩
  have hself : ∃ c, r'.get? r'.nextId = some c := by
    unfold get? at hother ⊢
    rwa [← h]
  exact absurd ((hr'.exists_iff _).1 hself).2 (Nat.lt_irrefl _)

/-- Where numbers have no gaps, the characters determine the next number. -/
theorem Dense.eq_of_characters (hr : r.Dense) (hr' : r'.Dense)
    (h : r.characters = r'.characters) : r = r' := by
  have hnext : r.nextId = r'.nextId :=
    rank_injective (Nat.le_antisymm (hr.nextId_le hr' h) (hr'.nextId_le hr h.symm))
  cases r
  cases r'
  cases h
  cases hnext
  rfl

end Roster

namespace GameState

variable {s s' : GameState} {height rate : UInt64} {hash : BlockHash}

theorem roster_eq_of_snapshot (hs : s.Tidy) (hs' : s'.Tidy)
    (h : s.snapshot height hash rate = s'.snapshot height hash rate) : s.roster = s'.roster := by
  have hviews := congrArg GameStateSnapshot.characters h
  have hlist : s.roster.toList = s'.roster.toList :=
    eq_of_map_eq (fun _ _ _ _ ↦ Character.eq_of_view) hviews
  refine hs.dense.eq_of_characters hs'.dense (Table.ext_entries ?_)
  rw [hs.wellFormed.roster.entries_eq, hs'.wellFormed.roster.entries_eq, hlist]

theorem regions_eq_of_snapshot (hs : s.Tidy) (hs' : s'.Tidy)
    (h : s.snapshot height hash rate = s'.snapshot height hash rate) :
    s.deposits.regions = s'.deposits.regions := by
  have hviews := congrArg GameStateSnapshot.regions h
  refine Table.ext_entries (eq_of_map_eq (fun e he e' he' heq ↦ ?_) hviews)
  obtain ⟨hid, hrecord⟩ := RegionRecord.eq_of_view
    (hs.typed e.1 e.2 (Table.get?_eq_some_iff.2 he))
    (hs'.typed e'.1 e'.2 (Table.get?_eq_some_iff.2 he')) heq
  exact Prod.ext hid hrecord

theorem loot_eq_of_snapshot (h : s.snapshot height hash rate = s'.snapshot height hash rate) :
    s.loot = s'.loot := by
  have hviews := congrArg GameStateSnapshot.groundLoot h
  have hentries : s.loot.piles.entries = s'.loot.piles.entries :=
    eq_of_map_eq (fun e _ e' _ heq ↦ by
      simpa [Prod.ext_iff] using GroundLootView.mk.inj heq) hviews
  exact congrArg GroundLoot.mk (Table.ext_entries hentries)

/-- What was ever prospected is determined by where the units are now. -/
theorem prospected_eq_of_balanced (hs : s.Tidy) (hs' : s'.Tidy) (hbalanced : s.Balanced)
    (hbalanced' : s'.Balanced) (hregions : s.deposits.regions = s'.deposits.regions)
    (hroster : s.roster = s'.roster) (hloot : s.loot = s'.loot) :
    s.deposits.prospected = s'.deposits.prospected := by
  refine Bundle.Positive.eq_of_amount hs.wellFormed.deposits hs'.wellFormed.deposits fun r ↦ ?_
  have hremaining : s.deposits.remainingOf r = s'.deposits.remainingOf r := by
    unfold Deposits.remainingOf
    rw [hregions]
  have hsum : s.deposits.prospectedOf r = s'.deposits.prospectedOf r := by
    rw [hbalanced r, hbalanced' r, hremaining, hroster, hloot]
  exact UInt64.toNat_inj.1 hsum

theorem eq_of_snapshot (hs : s.Tidy) (hs' : s'.Tidy) (hbalanced : s.Balanced)
    (hbalanced' : s'.Balanced) (hgrid : s.grid = s'.grid)
    (h : s.snapshot height hash rate = s'.snapshot height hash rate) : s = s' := by
  have hroster := roster_eq_of_snapshot hs hs' h
  have hregions := regions_eq_of_snapshot hs hs' h
  have hloot := loot_eq_of_snapshot h
  have hprospected :=
    prospected_eq_of_balanced hs hs' hbalanced hbalanced' hregions hroster hloot
  obtain ⟨grid, ⟨regions, prospected⟩, roster, loot⟩ := s
  obtain ⟨grid', ⟨regions', prospected'⟩, roster', loot'⟩ := s'
  cases hgrid
  cases hregions
  cases hprospected
  cases hroster
  cases hloot
  rfl

end GameState

namespace Trail

variable {rules : BlockRules} {o : Origin} {t : Trail}

theorem Sound.balanced (h : t.Sound rules o) : t.node.state.Balanced := by
  rw [h.state_eq]
  exact h.linked.balanced

/-- Two runs on one grid, whatever their rules, calls and origins, are in the same state if their
snapshots are equal, so they process every further block alike. -/
theorem run_eq_of_snapshot {rules₁ rules₂ : BlockRules} {o₁ o₂ : Origin} {calls₁ calls₂ : List Call}
    {height rate : UInt64} {hash : BlockHash} (hgrid : o₁.grid = o₂.grid)
    (h : (run rules₁ o₁ calls₁).node.state.snapshot height hash rate =
      (run rules₂ o₂ calls₂).node.state.snapshot height hash rate) :
    (run rules₁ o₁ calls₁).node.state = (run rules₂ o₂ calls₂).node.state ∧
      ∀ (rules : BlockRules) (b : BlockInput),
        processBlock rules b (run rules₁ o₁ calls₁).node.state =
          processBlock rules b (run rules₂ o₂ calls₂).node.state := by
  have h₁ := sound_run rules₁ o₁ calls₁
  have h₂ := sound_run rules₂ o₂ calls₂
  have hsame : (run rules₁ o₁ calls₁).node.state = (run rules₂ o₂ calls₂).node.state :=
    GameState.eq_of_snapshot h₁.tidy h₂.tidy h₁.balanced h₂.balanced
      (by rw [h₁.grid, h₂.grid, hgrid]) h
  exact ⟨hsame, fun rules b ↦ by rw [hsame]⟩

namespace Sample

def origin : Origin := ⟨⟨12, by decide, by decide⟩, 0, ⟨"genesis"⟩, 5⟩

/-- In every region lie seven units of one resource. -/
def seven (rate : UInt64) : BlockRules := ⟨rate, fun _ _ ↦ some ⟨.rawB, 7⟩, .walk⟩

/-- A character is created and prospects, mines, and drops a part of what it got. -/
def life : List BlockInput :=
  [⟨1, ⟨"a"⟩, ⟨"genesis"⟩, [⟨"owner", "first", ⟨3, 4⟩⟩], [(.first, ⟨[.prospect]⟩)]⟩,
    ⟨2, ⟨"b"⟩, ⟨"a"⟩, [], [(.first, ⟨[.mine]⟩)]⟩,
    ⟨3, ⟨"c"⟩, ⟨"b"⟩, [], [(.first, ⟨[.drop (Table.empty.insert .rawB 3)]⟩)]⟩]

def direct : List Call := life.map .attach

/-- The same blocks, but in the place of the third another one comes first and is taken back. -/
def around : List Call :=
  [.update ⟨⟨"b"⟩, false, life.take 2⟩,
    .attach ⟨3, ⟨"x"⟩, ⟨"b"⟩, [⟨"owner", "second", ⟨0, 0⟩⟩], []⟩,
    .update ⟨⟨"c"⟩, true, life.drop 2⟩]

end Sample

/-- With another rate and by another path, the seven units are used up and three of them lie on the
ground all the same. -/
theorem run_eq_of_snapshot_sample :
    (run (Sample.seven 10) Sample.origin Sample.direct).node.state.snapshot 3 ⟨"c"⟩ 10 =
        (run (Sample.seven 7) Sample.origin Sample.around).node.state.snapshot 3 ⟨"c"⟩ 10 ∧
      (run (Sample.seven 10) Sample.origin Sample.direct).node.state =
        (run (Sample.seven 7) Sample.origin Sample.around).node.state := by
  have hsnapshot :
      (run (Sample.seven 10) Sample.origin Sample.direct).node.state.snapshot 3 ⟨"c"⟩ 10 =
        (run (Sample.seven 7) Sample.origin Sample.around).node.state.snapshot 3 ⟨"c"⟩ 10 := by
    decide +kernel
  exact ⟨hsnapshot, (run_eq_of_snapshot rfl hsnapshot).1⟩

end Trail

end MiningGame
