import MiningGame.Proofs.Balance
import MiningGame.Proofs.Canonical
import MiningGame.Proofs.Outline

/-!
# What moves do

A canonical move comes down to one of three things: a character is sent on a way, starts to mine, or
searches the region it stands in (`Outline.moved`). Carrying out a move draws exactly this
(`Turn.move_draws`), so all moves of a block together draw the fold of it over the characters by
number.
-/

namespace MiningGame

/-- The deposit that prospecting brings to light; an empty find is none. -/
def Prospector.deposit? (prospector : Prospector) (region : RegionId) (height : UInt64) :
    Option Find :=
  (prospector region height).filter fun find ↦ find.amount ≠ 0

theorem Prospector.deposit?_eq_some_iff {prospector : Prospector} {region : RegionId}
    {height : UInt64} {find : Find} : prospector.deposit? region height = some find ↔
      prospector region height = some find ∧ find.amount ≠ 0 := by
  simp [deposit?]

/-- The move asks to prospect, and neither to go nor to mine. -/
def CharacterMove.searches (m : CharacterMove) : Bool :=
  m.waypoints?.isNone && !m.mines && m.prospects

/-- The stance of a character that is sent on a way. -/
def Stance.sent (st : Stance) (places : List Coord) : Stance := ⟨st.position, places, .idle⟩

/-- A deposit that a character brought to light. -/
structure Strike where
  region : RegionId
  character : CharacterId
  find : Find
  deriving DecidableEq

namespace Outline

/-- The stance of a character that is told to mine. -/
def started (o : Outline) (st : Stance) : Stance :=
  if o.stocked (o.site st) ∧ st.waypoints = [] ∧ st.mining = .idle then
    { st with mining := .mining (o.site st) }
  else st

/-- The stance of a character after its move. -/
def told (o : Outline) (m : CharacterMove) (st : Stance) : Stance :=
  match m.waypoints? with
  | some places => st.sent places
  | none => if m.mines then o.started st else st

/-- What a character that prospects brings to light. -/
def search? (o : Outline) (prospector : Prospector) (id : CharacterId) (st : Stance) :
    Option Strike :=
  if st.waypoints = [] ∧ o.stocked (o.site st) = false then
    (prospector.deposit? (o.site st) o.height).map fun find ↦ ⟨o.site st, id, find⟩
  else none

def struck (o : Outline) (x : Strike) : Outline :=
  o.settled x.region x.find ⟨x.character, o.height⟩

/-- What the move of a character brings to light. -/
def strike? (o : Outline) (prospector : Prospector) (id : CharacterId) (m : CharacterMove) :
    Option Strike :=
  if m.searches then (o.stance? id).bind (o.search? prospector id) else none

/-- The outline after a character has carried out its move. -/
def moved (o : Outline) (prospector : Prospector) (id : CharacterId) (m : CharacterMove) :
    Outline :=
  let o' := { o with stance? := Function.update o.stance? id ((o.stance? id).map (o.told m)) }
  (o.strike? prospector id m).elim o' o'.struck

/-- The outline after all of some moves were carried out in turn. -/
def movedAll (o : Outline) (prospector : Prospector) (es : List (CharacterId × CharacterMove)) :
    Outline :=
  es.foldl (fun o e ↦ o.moved prospector e.1 e.2) o

variable {o : Outline} {prospector : Prospector} {id : CharacterId} {m : CharacterMove}
  {st : Stance}

theorem moved_of_absent (h : o.stance? id = none) : o.moved prospector id m = o := by
  have hstrike : o.strike? prospector id m = none := by simp [strike?, h]
  have hsame : Function.update o.stance? id none = o.stance? := by
    rw [← h, Function.update_eq_self]
  simp only [moved, hstrike, h, Option.map_none, hsame, Option.elim_none]

theorem moved_of_not_searches (h : o.stance? id = some st) (hm : m.searches = false) :
    o.moved prospector id m = o.withStance id (o.told m st) := by
  have hstrike : o.strike? prospector id m = none := by simp [strike?, hm]
  simp only [moved, hstrike, h, Option.map_some, Option.elim_none, withStance]

theorem told_of_searches (hm : m.searches = true) : o.told m st = st := by
  simp only [CharacterMove.searches, Bool.and_eq_true, Option.isNone_iff_eq_none,
    Bool.not_eq_true'] at hm
  simp [told, hm]

theorem moved_of_searches (h : o.stance? id = some st) (hm : m.searches = true) :
    o.moved prospector id m = (o.search? prospector id st).elim o o.struck := by
  have hstrike : o.strike? prospector id m = o.search? prospector id st := by
    simp [strike?, hm, h]
  have hsame : Function.update o.stance? id (some st) = o.stance? := by
    rw [← h, Function.update_eq_self]
  simp only [moved, hstrike, h, Option.map_some, told_of_searches hm, hsame]

end Outline

/-! ## Starting to mine -/

theorem Deposits.Typed.any_isMineable {d : Deposits} (hd : d.Typed) (region : RegionId) :
    (d.record? region).any RegionRecord.isMineable = (d.resource? region).isSome := by
  unfold resource?
  cases hrecord : d.record? region with
  | none => rfl
  | some record =>
    have htyped : record.resource.isSome ↔ record.remaining ≠ 0 := hd region record hrecord
    cases hresource : record.resource <;>
      simp_all [RegionRecord.isMineable, RegionRecord.deposit?, UInt64.pos_iff_ne_zero]

namespace Roster

variable {c : Character}

theorem rejection?_eq_none_iff {deposits : Deposits} (htyped : deposits.Typed)
    (grid : Grid) (region : RegionId) :
    rejection? grid deposits c region = none ↔
      grid.regionAt c.position = region ∧ (deposits.resource? region).isSome ∧
        c.waypoints = [] ∧ (c.mining = .idle ∨ c.mining = .mining region) := by
  have hmoving : c.isMoving = !c.waypoints.isEmpty := rfl
  unfold rejection?
  rw [htyped.any_isMineable, hmoving]
  generalize grid.regionAt c.position = here
  generalize (deposits.resource? region).isSome = stocked
  rcases c with ⟨_, _, _, _, waypoints, mining, _⟩
  by_cases hregion : here = region
  · cases stocked with
    | false => simp [hregion]
    | true =>
      cases waypoints with
      | cons place rest => simp [hregion]
      | nil =>
        cases mining with
        | idle => simp [hregion]
        | mining current => by_cases hsame : current = region <;> simp [hregion, hsame]
  · simp [hregion]

theorem startMining_of_get? {r : Roster} {id : CharacterId} (found : r.get? id = some c)
    (grid : Grid) (deposits : Deposits) (region : RegionId) :
    r.startMining grid deposits id region = match rejection? grid deposits c region with
      | some reason => .error (.invalidMiningTarget id region reason)
      | none => r.setMining id (.mining region) := by
  unfold startMining
  rw [find_eq_ok_iff.2 found, ok_bind]
  cases rejection? grid deposits c region <;> rfl
end Roster

namespace Outline

variable {o : Outline} {st : Stance}

/-- Whether a character that stands like this may start or go on to mine where it is. -/
def Mines (o : Outline) (st : Stance) : Prop :=
  o.stocked (o.site st) ∧ st.waypoints = [] ∧ (st.mining = .idle ∨ st.mining = .mining (o.site st))

theorem started_of_mines (h : o.Mines st) :
    o.started st = { st with mining := .mining (o.site st) } := by
  obtain ⟨hstocked, hway, hidle | hsame⟩ := h
  · exact if_pos ⟨hstocked, hway, hidle⟩
  · refine (if_neg fun h ↦ ?_).trans ?_
    · rw [hsame] at h
      exact nomatch h.2.2
    · rw [← hsame]

theorem started_of_not_mines (h : ¬ o.Mines st) : o.started st = st :=
  if_neg fun hall ↦ h ⟨hall.1, hall.2.1, .inl hall.2.2⟩

theorem rejection?_eq_none_iff {p : Progress} {c : Character} (htidy : p.state.Tidy) :
    Roster.rejection? p.state.grid p.state.deposits c (p.state.grid.regionAt c.position) = none ↔
      p.outline.Mines c.stance := by
  have hstocked : (p.state.deposits.resource? (p.state.grid.regionAt c.position)).isSome =
      p.outline.stocked (p.outline.site c.stance) := (Deposits.stocked_outline p _).symm
  rw [Roster.rejection?_eq_none_iff htidy.typed, hstocked]
  exact and_iff_right rfl

end Outline

namespace Turn

variable {o : Outline} {id : CharacterId} {prospector : Prospector}

theorem travel_draws (places : List Coord) : Draws o (travel id places) fun _ o' ↦
    ∃ st, o.stance? id = some st ∧ o' = o.withStance id (st.sent places) := by
  apply (setWaypoints_draws places).bind
  rintro - o' ⟨st, hst, rfl⟩
  apply (setMining_draws .idle).mono
  rintro - o' ⟨st', hst', rfl⟩
  simp only [Outline.withStance, Function.update_self, Option.some.injEq] at hst'
  subst hst'
  refine ⟨st, hst, ?_⟩
  simp [Outline.withStance, Stance.sent]

theorem mine_draws : Draws o (mine id) fun _ o' ↦
    ∃ st, o.stance? id = some st ∧ o' = o.withStance id (o.started st) := by
  apply Draws.withState
  rintro p htidy rfl
  apply Draws.withCharacter
  intro c hc
  apply inRoster_draws (Recording.startIfAllowed_eq _ _ _ _) (Roster.startIfAllowed_logs _ _ _ _)
  intro s _ hstance out hout
  obtain ⟨c', found, hsame⟩ := Option.map_eq_some_iff.1 (hstance ▸ hc : s.roster.stance? id = _)
  have hposition : c'.position = c.position := congrArg Stance.position hsame
  have hallowed := Outline.rejection?_eq_none_iff (c := c') htidy
  rw [hsame] at hallowed
  rw [← hposition, Roster.startIfAllowed, Roster.startMining_of_get? found] at hout
  refine ⟨c.stance, hc, ?_⟩
  cases hreject : Roster.rejection? p.state.grid p.state.deposits c'
      (p.state.grid.regionAt c'.position) with
  | some reason =>
    have hnot : ¬ p.outline.Mines c.stance := by
      intro h
      cases hreject.symm.trans (hallowed.2 h)
    rw [hreject] at hout
    cases hout
    rw [Outline.started_of_not_mines hnot, Outline.withStance_self hc, hstance]
  | none =>
    obtain ⟨out', hset, -⟩ := Roster.replace_ok .mining found
      (.mining (p.state.grid.regionAt c'.position))
    have hset : s.roster.setMining id (.mining (p.state.grid.regionAt c'.position)) = .ok out' :=
      hset
    rw [hreject] at hout
    simp only [hset] at hout
    cases hout
    obtain ⟨st, hst, hafter⟩ := Roster.stance?_setMining hset
    rw [hstance, hc] at hst
    cases hst
    rw [Outline.started_of_mines (hallowed.1 hreject), hafter, hstance, hposition]
    rfl

theorem prospect_draws : Draws o (prospect prospector id) fun _ o' ↦
    ∃ st, o.stance? id = some st ∧ o' = (o.search? prospector id st).elim o o.struck := by
  apply Draws.withState
  rintro p htidy rfl
  apply Draws.withCharacter
  intro c hc
  have hmoving : c.isMoving = true ↔ c.stance.waypoints ≠ [] := by
    simp [Character.isMoving, Character.stance]
  have hstocked : (p.state.deposits.resource? (p.state.grid.regionAt c.position)).isSome =
      p.outline.stocked (p.outline.site c.stance) := (Deposits.stocked_outline p _).symm
  split
  · next hmove =>
    have hnone : p.outline.search? prospector id c.stance = none :=
      if_neg fun h ↦ hmoving.1 hmove h.1
    exact Draws.pure ⟨c.stance, hc, by rw [hnone]; rfl⟩
  · next hstill =>
    simp only [hstocked]
    split
    · next hpresent =>
      have hnone : p.outline.search? prospector id c.stance = none :=
        if_neg fun h ↦ Bool.false_ne_true (h.2.symm.trans hpresent)
      exact Draws.pure ⟨c.stance, hc, by rw [hnone]; rfl⟩
    · next hvacant =>
      have hway : c.stance.waypoints = [] := not_not.1 (mt hmoving.2 hstill)
      have hopen : p.outline.stocked (p.outline.site c.stance) = false :=
        Bool.eq_false_iff.2 hvacant
      have hsearch : p.outline.search? prospector id c.stance = _ := if_pos ⟨hway, hopen⟩
      apply Draws.withHeight
      split
      · next hnone =>
        have hfind : prospector.deposit? (p.outline.site c.stance) p.outline.height = none :=
          congrArg (Option.filter _) hnone
        rw [hfind] at hsearch
        exact Draws.pure ⟨c.stance, hc, by rw [hsearch]; rfl⟩
      · next find hfind =>
        have hfind : prospector (p.outline.site c.stance) p.outline.height = some find := hfind
        apply Draws.withHeight
        apply (settle_draws find _).mono
        rintro - o' rfl
        refine ⟨c.stance, hc, ?_⟩
        by_cases hzero : find.amount = 0
        · have hempty : prospector.deposit? (p.outline.site c.stance) p.outline.height = none := by
            refine (congrArg (Option.filter _) hfind).trans ?_
            simp [hzero]
          rw [hsearch, hempty, if_neg fun h ↦ h.2 hzero]
          rfl
        · rw [hsearch, Prospector.deposit?_eq_some_iff.2 ⟨hfind, hzero⟩]
          exact if_pos ⟨hopen, hzero⟩

theorem pickUp_draws (resource : Resource) (requested : UInt64) :
    Draws o (pickUp id resource requested) fun _ o' ↦ o' = o := by
  apply Draws.withCharacter
  intro c _
  apply (inLoot_draws (Recording.pickUp_eq c.position resource requested)
    (GroundLoot.pickUp_logs c.position resource requested)).bind
  rintro taken o' rfl
  apply inRoster_draws_self (Recording.credit_eq id resource taken)
    (Roster.credit_logs id resource taken)
  intro r out hout
  exact Roster.stance?_credit hout

theorem drop_draws (resource : Resource) (requested : UInt64) :
    Draws o (drop id resource requested) fun _ o' ↦ o' = o := by
  apply Draws.withCharacter
  intro c _
  refine (inRoster_draws_self (Recording.debit_eq id resource _)
    (Roster.debit_logs id resource _) ?_).bind ?_
  · intro r out hout
    exact Roster.stance?_debit hout
  · rintro - o' rfl
    exact inLoot_draws (Recording.dropAt_eq c.position resource _)
      (GroundLoot.dropAt_logs c.position resource _)

/-- Directives that only carry units do not show in the outline. -/
theorem carrying_draws {ds : List Directive} (h : ∀ d ∈ ds, d.Carries) :
    Draws o (ds.forM (directive prospector id)) fun _ o' ↦ o' = o := by
  apply Draws.forM_self
  intro d hd
  rcases h d hd with ⟨items, rfl | rfl⟩
  · exact Draws.forM_self fun e _ ↦ pickUp_draws e.1 e.2
  · exact Draws.forM_self fun e _ ↦ drop_draws e.1 e.2

/-! ## Moves -/

variable {m : CharacterMove} {st : Stance}

theorem sending_draws {places : List Coord} (hm : m.Canonical) (hst : o.stance? id = some st)
    (hway : m.waypoints? = some places) :
    Draws o (m.resolve.directives.forM (directive prospector id)) fun _ o' ↦
      o' = o.moved prospector id m := by
  have hsearches : m.searches = false := by simp [CharacterMove.searches, hway]
  obtain ⟨rest, hrest, hcarry⟩ := hm.resolve_of_waypoints hway
  rw [hrest, Outline.moved_of_not_searches hst hsearches]
  apply (travel_draws places).bind
  rintro - o' ⟨st', hst', rfl⟩
  cases hst.symm.trans hst'
  apply (carrying_draws hcarry).mono
  rintro - o' rfl
  simp only [Outline.told, hway]

theorem mining_draws (hm : m.Canonical) (hst : o.stance? id = some st)
    (hway : m.waypoints? = none) (hmines : m.mines = true) :
    Draws o (m.resolve.directives.forM (directive prospector id)) fun _ o' ↦
      o' = o.moved prospector id m := by
  have hsearches : m.searches = false := by simp [CharacterMove.searches, hmines]
  obtain ⟨rest, hrest, hcarry⟩ := hm.resolve_of_mines hway hmines
  rw [hrest, Outline.moved_of_not_searches hst hsearches]
  apply mine_draws.bind
  rintro - o' ⟨st', hst', rfl⟩
  cases hst.symm.trans hst'
  apply (carrying_draws hcarry).mono
  rintro - o' rfl
  simp only [Outline.told, hway, hmines, if_true]

theorem searching_draws (hm : m.Canonical) (hst : o.stance? id = some st)
    (hway : m.waypoints? = none) (hmines : m.mines = false) (hprospects : m.prospects = true) :
    Draws o (m.resolve.directives.forM (directive prospector id)) fun _ o' ↦
      o' = o.moved prospector id m := by
  have hsearches : m.searches = true := by
    simp [CharacterMove.searches, hway, hmines, hprospects]
  obtain ⟨before, hbefore, hcarry⟩ := hm.resolve_of_prospects hway hmines hprospects
  have hlast : forM [Directive.prospect] (directive prospector id) = prospect prospector id :=
    bind_pure_unit (x := prospect prospector id)
  rw [hbefore, List.forM_eq_forM, List.forM_append, hlast,
    Outline.moved_of_searches hst hsearches]
  apply (carrying_draws hcarry).bind
  rintro - o' rfl
  apply prospect_draws.mono
  rintro - o' ⟨st', hst', rfl⟩
  cases hst.symm.trans hst'
  rfl

/-- Carrying out a canonical move does what its outline tells. -/
theorem move_draws (hm : m.Canonical) :
    Draws o (move prospector id m) fun _ o' ↦ o' = o.moved prospector id m := by
  apply Draws.withState
  rintro p htidy rfl
  cases hst : p.outline.stance? id with
  | none =>
    have habsent : p.state.roster.get? id = none := Option.map_eq_none_iff.1 hst
    rw [habsent]
    exact Draws.pure (Outline.moved_of_absent hst).symm
  | some st =>
    obtain ⟨c, found, -⟩ := Option.map_eq_some_iff.1 hst
    simp only [found, Option.isSome_some, if_true]
    cases hway : m.waypoints? with
    | some places => exact sending_draws hm hst hway
    | none =>
      cases hmines : m.mines with
      | true => exact mining_draws hm hst hway hmines
      | false =>
        cases hprospects : m.prospects with
        | true => exact searching_draws hm hst hway hmines hprospects
        | false =>
          have hsearches : m.searches = false := by simp [CharacterMove.searches, hprospects]
          have htold : p.outline.told m st = st := by simp [Outline.told, hway, hmines]
          rw [Outline.moved_of_not_searches hst hsearches, htold, Outline.withStance_self hst]
          exact carrying_draws fun d ↦ CharacterMove.resolve_of_neither hway hmines hprospects

/-- All moves of a block together do what the fold over their outlines tells. -/
theorem moves_draws (all : List (CharacterId × CharacterMove)) :
    Draws o (moves prospector all) fun _ o' ↦
      o' = o.movedAll prospector (CharacterMove.merge all).entries := by
  apply Draws.foldl
  intro e he o
  exact move_draws (CharacterMove.merge_canonical (Table.get?_eq_some_iff.2 he))

end Turn

end MiningGame
