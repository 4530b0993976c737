import MiningGame.Proofs.Finds
import MiningGame.Proofs.Provenance
import MiningGame.Proofs.Snapshots

/-!
# Who mines in the end of a block

When characters follow their waypoints, whoever mines goes nowhere (`GameState.Stays`). Under this
condition each phase of a block changes what a character mines in a way that can be told from its
stance. Together they tell who mines what in the end (`BlockInput.Occupies`).
-/

namespace MiningGame

/-- Whoever mines goes nowhere. -/
def Stance.Stays (st : Stance) : Prop := ∀ r, st.mining = .mining r → st.waypoints = []

def GameState.Stays (s : GameState) : Prop :=
  ∀ id c, s.roster.get? id = some c → c.stance.Stays

/-- What it takes for a character, there as `c` when the moves of a block begin and as `c'` in the
end, to mine a region then. -/
structure BlockInput.Occupies (b : BlockInput) (prospector : Prospector) (s s' : GameState)
    (id : CharacterId) (c c' : Character) (region : RegionId) : Prop where
  unsent : (b.moveOf id).waypoints? = none
  resting : c.waypoints = []
  site : s.grid.regionAt c'.position = region
  /-- It has mined there before, or it is told to mine, and there is a deposit that was there before
  or that a character with a smaller number has just found. -/
  started : c.mining = .mining region ∨ (b.moveOf id).mines = true ∧
    ((s.deposits.resource? region).isSome ∨
      ∃ k find, k.value < id.value ∧ b.Finds prospector s region k find)
  left : 0 < s'.deposits.remaining region

/-! ## One phase after the other -/

namespace Stance

variable {st : Stance} {r : RegionId}

theorem walked_of_resting (h : st.waypoints = []) : st.walked = st := by
  simp [walked, h]

theorem Stays.idle (h : st.Stays) (hway : st.waypoints ≠ []) : st.mining = .idle := by
  cases hr : st.mining with
  | idle => rfl
  | mining r => exact absurd (h r hr) hway

/-- Walking stops no miner, since none of them walks. -/
theorem Stays.walked_mining (h : st.Stays) : st.walked.mining = st.mining := by
  cases hway : st.waypoints with
  | nil => rw [walked_of_resting hway]
  | cons next rest =>
    have hidle := h.idle (by simp [hway])
    simp [walked, stepped, hway, hidle]

end Stance

namespace Outline

variable {o : Outline} {st : Stance} {m : CharacterMove} {r : RegionId}

/-- A character that is told to mine does so where it stands. -/
theorem started_mining_iff (hsite : ∀ r, st.mining = .mining r → o.site st = r)
    (hstays : st.Stays) : (o.started st).mining = .mining r ↔
      st.waypoints = [] ∧ o.site st = r ∧ (st.mining = .mining r ∨ o.stocked r = true) := by
  by_cases hstart : o.stocked (o.site st) ∧ st.waypoints = [] ∧ st.mining = .idle
  · have hmining : (o.started st).mining = .mining (o.site st) := by
      rw [started, if_pos hstart]
    obtain ⟨hstocked, hway, hidle⟩ := hstart
    rw [hmining, MiningStatus.mining.injEq]
    constructor
    · rintro rfl
      exact ⟨hway, rfl, .inr hstocked⟩
    · rintro ⟨-, hr, -⟩
      exact hr
  · rw [started, if_neg hstart]
    constructor
    · intro hr
      exact ⟨hstays r hr, hsite r hr, .inl hr⟩
    · rintro ⟨hway, rfl, hr | hstocked⟩
      · exact hr
      · cases hbefore : st.mining with
        | idle => exact absurd ⟨hstocked, hway, hbefore⟩ hstart
        | mining r' => rw [hsite r' hbefore]

/-- What a character mines after its move. -/
theorem told_mining_iff (hsite : ∀ r, st.mining = .mining r → o.site st = r)
    (hstays : st.Stays) : (o.told m st).mining = .mining r ↔
      m.waypoints? = none ∧ st.waypoints = [] ∧ o.site st = r ∧
        (st.mining = .mining r ∨ m.mines = true ∧ o.stocked r = true) := by
  cases hway : m.waypoints? with
  | some places => simp [told, hway, Stance.sent]
  | none =>
    cases hmines : m.mines with
    | true => simp [told, hway, hmines, started_mining_iff hsite hstays]
    | false =>
      simp only [told, hway, hmines, Bool.false_eq_true, if_false, false_and, or_false, true_and]
      constructor
      · intro hr
        exact ⟨hstays r hr, hsite r hr, hr⟩
      · rintro ⟨-, -, hr⟩
        exact hr

/-- Unless it is sent away, a character stays where it is and goes where it was going. -/
theorem told_place (o : Outline) (h : m.waypoints? = none) :
    (o.told m st).position = st.position ∧ (o.told m st).waypoints = st.waypoints := by
  have hstarted : (o.started st).position = st.position ∧
      (o.started st).waypoints = st.waypoints := by
    unfold started
    split <;> exact ⟨rfl, rfl⟩
  simp only [told, h]
  split
  · exact hstarted
  · exact ⟨rfl, rfl⟩

theorem told_stays (hsite : ∀ r, st.mining = .mining r → o.site st = r) (hstays : st.Stays) :
    (o.told m st).Stays := by
  intro r hr
  obtain ⟨hunsent, hresting, -⟩ := (told_mining_iff hsite hstays).1 hr
  rw [(o.told_place hunsent).2]
  exact hresting

/-- Who is not sent away and goes nowhere is in the end where it was, and still goes nowhere. -/
theorem place_of_unsent (o' : Outline) (hunsent : m.waypoints? = none)
    (hresting : st.waypoints = []) :
    (o'.rested (o.told m st).walked).position = st.position ∧
      (o'.rested (o.told m st).walked).waypoints = [] := by
  obtain ⟨hposition, hway⟩ := o.told_place hunsent
  rw [rested_place.1, rested_place.2, Stance.walked_of_resting (hway.trans hresting)]
  exact ⟨hposition, hway.trans hresting⟩

@[simp] theorem site_atTurn {prospector : Prospector} {es : List (CharacterId × CharacterMove)}
    {id : CharacterId} : (o.atTurn prospector es id).site st = o.site st := by
  rw [site, site, atTurn, movedAll_grid]

/-- At its turn, a character finds the deposits from before the block and those that the characters
before it have found. -/
theorem stocked_atTurn_iff {b : BlockInput} {prospector : Prospector} {s : GameState}
    {id : CharacterId} : ((s.begun b).atTurn prospector b.orders id).stocked r = true ↔
        (s.deposits.resource? r).isSome ∨
          ∃ k find, k.value < id.value ∧ b.Finds prospector s r k find := by
  have hbefore : (s.begun b).stocked r = (s.deposits.resource? r).isSome :=
    Deposits.stocked_outline (Progress.mk s (.new b.height)) r
  have hascending := b.orders_ascending
  rw [atTurn, stocked_movedAll_iff (hascending.filter _), hbefore]
  apply or_congr_right
  constructor
  · rintro ⟨⟨region, k, find⟩, hstrike, rfl⟩
    obtain ⟨hstrike, hlt⟩ := strikes_filter_iff.1 hstrike
    exact ⟨k, find, UInt64.lt_iff_toNat_lt.2 hlt, BlockInput.finds_iff.2 hstrike⟩
  · rintro ⟨k, find, hlt, hfinds⟩
    exact ⟨⟨r, k, find⟩, strikes_filter_iff.2 ⟨BlockInput.finds_iff.1 hfinds,
      UInt64.lt_iff_toNat_lt.1 hlt⟩, rfl⟩

end Outline

/-! ## The whole block -/

section Block

variable {rate : UInt64} {prospector : Prospector} {b : BlockInput} {s s' : GameState}
  {undo : BlockUndo} {id : CharacterId} {c' : Character}

theorem GameState.Stays.opened (h : s.Stays) (hs : s.WellFormed) (b : BlockInput) :
    (s.opened b).Stays := by
  intro id c found
  rcases get?_opened hs found with hkept | ⟨-, new, -, rfl⟩
  · exact h id c hkept
  · intro r hr
    cases hr

/-- The phases of a block whose characters follow their waypoints. -/
theorem processBlock_walks (h : processBlock ⟨rate, prospector, .walk⟩ b s = .ok undo s')
    (hs : s.Tidy) (hmanned : (s.outline b.height).Manned) :
    Outline.Mined ((s.begun b).movedAll prospector b.orders).walked
      (Progress.mk s' undo).outline := by
  obtain ⟨o, rfl, hmined⟩ := processBlock_phases (R := fun o o' ↦ o' = o.walked) h hs hmanned
    (fun _ ↦ Turn.movement_walk_draws) fun o _ ho hwalked ↦
      hwalked ▸ ho.roamed o.roamed_walked
  exact hmined

/-- The stance of a character in the end of a block: it is told its move, walks, and rests if
nothing is left where it mines. -/
theorem processBlock_stance (h : processBlock ⟨rate, prospector, .walk⟩ b s = .ok undo s')
    (hs : s.Tidy) (hmanned : (s.outline b.height).Manned) (found : s'.roster.get? id = some c') :
    ∃ c, (s.opened b).roster.get? id = some c ∧
      c'.stance = (Progress.mk s' undo).outline.rested
        (((s.begun b).atTurn prospector b.orders id).told (b.moveOf id) c.stance).walked := by
  have hmined := processBlock_walks h hs hmanned
  have hlast : (Progress.mk s' undo).outline.stance? id = some c'.stance :=
    Roster.stance?_of_get? found
  rw [hmined.stance?] at hlast
  obtain ⟨walked, hwalked, hrested⟩ := Option.map_eq_some_iff.1 hlast
  obtain ⟨told, htold, rfl⟩ := Option.map_eq_some_iff.1 hwalked
  rw [Outline.movedAll_stance? b.orders_ascending, BlockInput.lookUp_getD] at htold
  obtain ⟨first, hfirst, rfl⟩ := Option.map_eq_some_iff.1 htold
  obtain ⟨c, hc, rfl⟩ := Option.map_eq_some_iff.1 hfirst
  exact ⟨c, hc, hrested.symm⟩

/-- A character mines a region in the end of a block exactly if it occupies it. -/
theorem processBlock_mining_iff (h : processBlock ⟨rate, prospector, .walk⟩ b s = .ok undo s')
    (hs : s.Tidy) (hmanned : (s.outline b.height).Manned) (hstays : s.Stays)
    (found : s'.roster.get? id = some c') : ∃ c, (s.opened b).roster.get? id = some c ∧
      ((b.moveOf id).waypoints? = none → c.waypoints = [] →
        c'.position = c.position ∧ c'.waypoints = []) ∧
      ∀ r, c'.mining = .mining r ↔ b.Occupies prospector s s' id c c' r := by
  obtain ⟨c, hc, hstance⟩ := processBlock_stance h hs hmanned found
  have hplace : (b.moveOf id).waypoints? = none → c.waypoints = [] →
      c'.stance.position = c.stance.position ∧ c'.stance.waypoints = [] := by
    intro hunsent hresting
    rw [hstance]
    exact Outline.place_of_unsent _ hunsent hresting
  refine ⟨c, hc, hplace, fun r ↦ ?_⟩
  have hsite : ∀ r, c.stance.mining = .mining r →
      ((s.begun b).atTurn prospector b.orders id).site c.stance = r := by
    intro r hr
    rw [Outline.site_atTurn]
    exact (GameState.manned_opened hs.wellFormed hmanned).site id c.stance r
      (Roster.stance?_of_get? hc) hr
  have hfirst := hstays.opened hs.wellFormed b id c hc
  have hleft : (Progress.mk s' undo).outline.stocked r = true ↔ 0 < s'.deposits.remaining r := by
    rw [UInt64.pos_iff_ne_zero, ne_eq, (processBlock_tidy h hs).typed.remaining_eq_zero_iff,
      Deposits.resource?_eq_none_iff ⟨s', undo⟩, Bool.not_eq_false]
  have hgrid : (s.begun b).site c.stance = s.grid.regionAt c.position := rfl
  change c'.stance.mining = .mining r ↔ _
  rw [hstance, Outline.rested_mining_iff, (Outline.told_stays hsite hfirst).walked_mining,
    Outline.told_mining_iff hsite hfirst, Outline.stocked_atTurn_iff, Outline.site_atTurn, hgrid,
    hleft]
  constructor
  · rintro ⟨⟨hunsent, hresting, hhere, hstarted⟩, hremaining⟩
    have hposition : c'.position = c.position := (hplace hunsent hresting).1
    exact ⟨hunsent, hresting, by rw [hposition]; exact hhere, hstarted, hremaining⟩
  · rintro ⟨hunsent, hresting, hhere, hstarted, hremaining⟩
    have hposition : c'.position = c.position := (hplace hunsent hresting).1
    rw [hposition] at hhere
    exact ⟨⟨hunsent, hresting, hhere, hstarted⟩, hremaining⟩

theorem processBlock_stays (h : processBlock ⟨rate, prospector, .walk⟩ b s = .ok undo s')
    (hs : s.Tidy) (hmanned : (s.outline b.height).Manned) (hstays : s.Stays) : s'.Stays := by
  intro id c' found r hr
  obtain ⟨c, -, hplace, hiff⟩ := processBlock_mining_iff h hs hmanned hstays found
  obtain ⟨hunsent, hresting, -⟩ := (hiff r).1 hr
  exact (hplace hunsent hresting).2

end Block

namespace Trail

variable {rate rate' : UInt64} {prospector prospector' : Prospector} {o : Origin}
  {t : Trail} {branch : List Milestone} {calls : List Call} {b : BlockInput} {s' : GameState}
  {undo : BlockUndo} {id : CharacterId} {c' : Character}

theorem Linked.stays (h : Linked ⟨rate, prospector, .walk⟩ o branch) :
    (top o branch).state.Stays := by
  induction h with
  | nil => exact fun _ _ found ↦ nomatch found
  | cons _ processed rest ih => exact processBlock_stays processed rest.tidy (rest.manned _) ih

theorem Sound.stays (h : t.Sound ⟨rate, prospector, .walk⟩ o) : t.node.state.Stays := by
  rw [h.state_eq]
  exact h.linked.stays

/-- After a run in which characters follow their waypoints, any such block lets a character mine
exactly what it occupies, and nobody goes over from one region to another. -/
theorem run_mining_iff
    (h : processBlock ⟨rate', prospector', .walk⟩ b
      (run ⟨rate, prospector, .walk⟩ o calls).node.state = .ok undo s')
    (found : s'.roster.get? id = some c') :
    let s := (run ⟨rate, prospector, .walk⟩ o calls).node.state
    ∃ c, (s.roster.get? id = some c ∨ s.roster.get? id = none ∧
        ∃ new ∈ b.creates, c = .spawn id new.owner new.name new.position) ∧
      (∀ r, c'.mining = .mining r ↔ b.Occupies prospector' s s' id c c' r) ∧
      ((∀ r, ¬ b.Occupies prospector' s s' id c c' r) → c'.mining = .idle) ∧
      ∀ r r', c.mining = .mining r → c'.mining = .mining r' → r' = r := by
  intro s
  have hsound := sound_run ⟨rate, prospector, .walk⟩ o calls
  have hmanned : (s.outline b.height).Manned := hsound.manned b.height
  have hwell : s.WellFormed := hsound.tidy.wellFormed
  obtain ⟨c, hc, hplace, hiff⟩ :=
    processBlock_mining_iff h hsound.tidy hmanned hsound.stays found
  refine ⟨c, GameState.get?_opened hwell hc, hiff, ?_, ?_⟩
  · intro hnone
    cases hr : c'.mining with
    | idle => rfl
    | mining r => exact absurd ((hiff r).1 hr) (hnone r)
  · intro r r' hr hr'
    obtain ⟨hunsent, hresting, hhere, -⟩ := (hiff r').1 hr'
    have hbefore : s.grid.regionAt c.position = r :=
      (GameState.manned_opened hwell hmanned).site id c.stance r (Roster.stance?_of_get? hc) hr
    rw [← hhere, (hplace hunsent hresting).1, hbefore]

namespace Sample

/-- In a used up region the first character prospects again, and a new one comes to mine. -/
def rush : BlockInput :=
  ⟨4, ⟨"d"⟩, ⟨"c"⟩, [⟨"owner", "second", ⟨3, 4⟩⟩],
    [(⟨2⟩, ⟨[.mine]⟩), (.first, ⟨[.prospect]⟩)]⟩

end Sample

/-- The new character mines in the same block, for it comes after the one that prospects. -/
theorem run_mining_iff_sample : ∃ undo s' c c',
    processBlock (Sample.seven 3) Sample.rush
        (run (Sample.seven 10) Sample.origin Sample.direct).node.state = .ok undo s' ∧
      s'.roster.get? ⟨2⟩ = some c' ∧
      c'.mining = .mining (Sample.origin.grid.regionAt ⟨3, 4⟩) ∧
      Sample.rush.Occupies (Sample.seven 3).prospector
        (run (Sample.seven 10) Sample.origin Sample.direct).node.state s' ⟨2⟩ c c'
        (Sample.origin.grid.regionAt ⟨3, 4⟩) := by
  have hmines : (outcome? (processBlock (Sample.seven 3) Sample.rush
      (run (Sample.seven 10) Sample.origin Sample.direct).node.state)).bind
        (fun x ↦ (x.2.roster.get? ⟨2⟩).map Character.mining) =
      some (.mining (Sample.origin.grid.regionAt ⟨3, 4⟩)) := by decide +kernel
  obtain ⟨⟨undo, s'⟩, hrun, hmines⟩ := Option.bind_eq_some_iff.1 hmines
  rw [outcome?_eq_some_iff] at hrun
  obtain ⟨c', found, hmining⟩ := Option.map_eq_some_iff.1 hmines
  obtain ⟨c, -, hiff, -⟩ := run_mining_iff hrun found
  exact ⟨undo, s', c, c', hrun, found, hmining, (hiff _).1 hmining⟩

end Trail

end MiningGame
