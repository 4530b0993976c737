import Mathlib.Order.WellFounded
import MiningGame.Proofs.Opening

/-!
# Who finds what

Which prospections of a block succeed can be read off the state in which its moves begin: in a
region without deposit it is the first of the characters that search it, if there is anything to be
found. These are the strikes of the moves (`BlockInput.finds_iff`).
-/

namespace MiningGame

namespace BlockInput

/-- A character searches a region in a block: it stands there and goes nowhere when the moves begin,
and it is to prospect, but neither to go nor to mine. -/
def Searches (b : BlockInput) (s : GameState) (region : RegionId) (id : CharacterId) : Prop :=
  ∃ c, (s.opened b).roster.get? id = some c ∧ s.grid.regionAt c.position = region ∧
    c.waypoints = [] ∧ (b.moveOf id).prospects = true ∧ (b.moveOf id).waypoints? = none ∧
    (b.moveOf id).mines = false

/-- A character finds a deposit in a block. -/
structure Finds (b : BlockInput) (prospector : Prospector) (s : GameState) (region : RegionId)
    (id : CharacterId) (find : Find) : Prop where
  vacant : s.deposits.resource? region = none
  searches : b.Searches s region id
  first : ∀ k, b.Searches s region k → id.value ≤ k.value
  found : prospector region b.height = some find
  positive : find.amount ≠ 0

variable {b : BlockInput} {prospector : Prospector} {s : GameState} {region : RegionId}
  {id k : CharacterId} {m : CharacterMove} {find : Find}

/-- The strikes of the moves of a block. -/
abbrev Strikes (b : BlockInput) (prospector : Prospector) (s : GameState) (x : Strike) : Prop :=
  (s.begun b).Strikes prospector b.orders x

theorem moveOf_of_mem (h : (id, m) ∈ b.orders) : b.moveOf id = m := by
  unfold moveOf
  rw [Table.get?_eq_some_iff.2 h]
  rfl

theorem lookUp_getD (b : BlockInput) (id : CharacterId) :
    (Table.lookUp id b.orders).getD .empty = b.moveOf id := rfl

/-- Only what has a move is asked to prospect. -/
theorem mem_of_prospects (h : (b.moveOf id).prospects = true) :
    (id, b.moveOf id) ∈ b.orders := by
  cases hget : (CharacterMove.merge b.moves).get? id with
  | none =>
    have hempty : b.moveOf id = .empty := by
      unfold moveOf
      rw [hget]
      rfl
    rw [hempty] at h
    cases h
  | some m =>
    have hmem := Table.get?_eq_some_iff.1 hget
    rw [moveOf_of_mem hmem]
    exact hmem

theorem searches_iff : b.Searches s region id ↔
    ∃ m, (id, m) ∈ b.orders ∧ (s.begun b).Asks region id m := by
  constructor
  · rintro ⟨c, found, hregion, hway, hprospects, hgoes, hmines⟩
    refine ⟨b.moveOf id, mem_of_prospects hprospects, c.stance, Roster.stance?_of_get? found,
      hregion, hway, ?_⟩
    simp [CharacterMove.searches, hprospects, hgoes, hmines]
  · rintro ⟨m, hm, st, hst, hregion, hway, hsearches⟩
    obtain ⟨c, found, rfl⟩ := Option.map_eq_some_iff.1 hst
    simp only [CharacterMove.searches, Bool.and_eq_true, Option.isNone_iff_eq_none,
      Bool.not_eq_true'] at hsearches
    obtain ⟨⟨hgoes, hmines⟩, hprospects⟩ := hsearches
    rw [← moveOf_of_mem hm] at hgoes hmines hprospects
    exact ⟨c, found, hregion, hway, hprospects, hgoes, hmines⟩

theorem stocked_eq_false_iff (height : UInt64) : (s.outline height).stocked region = false ↔
    s.deposits.resource? region = none :=
  (Deposits.resource?_eq_none_iff (Progress.mk s (.new height)) region).symm

/-- If anybody searches a region in which there is something, somebody finds it. -/
theorem Searches.exists_finds (h : b.Searches s region k)
    (hvacant : s.deposits.resource? region = none) (hfound : prospector region b.height = some find)
    (hpositive : find.amount ≠ 0) : ∃ id, b.Finds prospector s region id find := by
  obtain ⟨id, hid, hleast⟩ :=
    (measure (rank : CharacterId → Nat)).wf.has_min {id | b.Searches s region id} ⟨k, h⟩
  refine ⟨id, hvacant, hid, ?_, hfound, hpositive⟩
  intro k hk
  exact UInt64.le_iff_toNat_le.2 (Nat.le_of_not_lt (hleast k hk))

/-- What characters find are the strikes of their moves. -/
theorem finds_iff :
    b.Finds prospector s region id find ↔ b.Strikes prospector s ⟨region, id, find⟩ := by
  constructor
  · rintro ⟨hvacant, hsearches, hfirst, hfound, hpositive⟩
    refine ⟨(stocked_eq_false_iff b.height).2 hvacant, searches_iff.1 hsearches, ?_,
      Prospector.deposit?_eq_some_iff.2 ⟨hfound, hpositive⟩⟩
    intro e he hasks
    exact UInt64.le_iff_toNat_le.1 (hfirst e.1 (searches_iff.2 ⟨e.2, he, hasks⟩))
  · rintro ⟨hvacant, hsearches, hleast, hfound⟩
    obtain ⟨hfound, hpositive⟩ := Prospector.deposit?_eq_some_iff.1 hfound
    refine ⟨(stocked_eq_false_iff b.height).1 hvacant, searches_iff.2 hsearches, ?_, hfound,
      hpositive⟩
    intro k hk
    obtain ⟨m, hm, hasks⟩ := searches_iff.1 hk
    exact UInt64.le_iff_toNat_le.2 (hleast (k, m) hm hasks)

end BlockInput

end MiningGame
