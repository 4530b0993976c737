import MiningGame.Proofs.Recordings

/-!
# Everything is recorded

A turn changes nothing but by changes whose deltas it records, in their order, whether it succeeds
or breaks off half-way. The operations on the tables have this property, the combinators of turns
keep it, so the parts of a block and the block have it (`Turn.block_logs`). What single changes
keep is therefore kept by blocks.
-/

namespace MiningGame

/-- The second progress comes from the first by changes whose deltas were recorded. -/
def Logged (p p' : Progress) : Prop :=
  ∃ δs, p'.undo = p.undo.append δs ∧ History GameState.Change p.state δs p'.state

namespace Logged

theorem refl (p : Progress) : Logged p p :=
  ⟨[], by simp [BlockUndo.append], .nil p.state⟩

theorem step {o p p' : Progress} {δs : List UndoDelta} (h : Logged o p)
    (hundo : p'.undo = p.undo.append δs) (hstate : History GameState.Change p.state δs p'.state) :
    Logged o p' := by
  obtain ⟨before, hbefore, hhistory⟩ := h
  refine ⟨before ++ δs, ?_, hhistory.append hstate⟩
  rw [hundo, hbefore]
  simp [BlockUndo.append]

theorem height_eq {p p' : Progress} (h : Logged p p') : p'.undo.height = p.undo.height := by
  obtain ⟨δs, hundo, -⟩ := h
  rw [hundo]
  rfl

end Logged

/-- The causes for which a turn breaks off. That changes could not be taken back is none. -/
def BlockError.BreaksOff (e : BlockError) : Prop := ∀ cause, e ≠ .rollback cause

theorem BlockError.breaksOff_character (cause : CharacterError) : (character cause).BreaksOff :=
  nofun

theorem BlockError.breaksOff_world (cause : WorldError) : (world cause).BreaksOff := nofun

/-- A turn changes nothing but what it records, also when it breaks off. -/
def Turn.Logs {α : Type} (t : Turn α) : Prop :=
  ∀ o, Contract (Logged o) t (fun _ ↦ Logged o) (fun e p ↦ e.BreaksOff ∧ Logged o p)

namespace Turn

variable {α β : Type}

theorem pure_logs (a : α) : Logs (pure a : Turn α) := fun _ ↦ Contract.pure fun _ h ↦ h

theorem throw_logs {e : BlockError} (he : e.BreaksOff) : Logs (throw e : Turn α) :=
  fun _ _ h ↦ ⟨he, h⟩

theorem state_logs : Logs state := fun _ _ h ↦ h

theorem height_logs : Logs height := fun _ _ h ↦ h

theorem Logs.bind {t : Turn α} {f : α → Turn β} (ht : Logs t) (hf : ∀ a, Logs (f a)) :
    Logs (t >>= f) := fun o ↦ (ht o).bind fun a ↦ hf a o

theorem Logs.forM {f : α → Turn Unit} {l : List α} (h : ∀ a, Logs (f a)) : Logs (l.forM f) :=
  fun o ↦ Contract.forM fun a _ ↦ h a o

theorem Logs.mapM {f : α → Turn β} {l : List α} (h : ∀ a, Logs (f a)) : Logs (l.mapM f) :=
  fun o ↦ Contract.mapM fun a _ ↦ h a o

theorem inTable_logs {ε τ : Type} {get : GameState → τ} {set : GameState → τ → GameState}
    {cause : ε → BlockError} {e : Recording ε τ α} {f : τ → Except ε (Recorded τ α)}
    (hset : ∀ s, set s (get s) = s) (hcause : ∀ x, (cause x).BreaksOff) (he : e = .ofAnswer f)
    (h : ∀ s out, f (get s) = .ok out →
      History GameState.Change s out.deltas (set s out.state)) :
    Logs (inTable get set cause e) := by
  intro o p hp
  rw [he, inTable_ofAnswer hset]
  cases hf : f (get p.state) with
  | error x => exact ⟨hcause x, hp⟩
  | ok out => exact hp.step rfl (h p.state out hf)

theorem inRoster_logs {e : Recording CharacterError Roster α}
    {f : Roster → Except CharacterError (Recorded Roster α)} (he : e = .ofAnswer f)
    (h : Roster.Logs f) : Logs (inRoster e) :=
  inTable_logs (fun _ ↦ rfl) BlockError.breaksOff_character he fun s out hout ↦
    (h s.roster out hout).map (f := fun r ↦ { s with roster := r }) fun _ _ _ hr ↦
      GameState.Change.roster (s := { s with roster := _ }) hr

theorem inDeposits_logs {e : Recording WorldError Deposits α}
    {f : Deposits → Except WorldError (Recorded Deposits α)} (he : e = .ofAnswer f)
    (h : Deposits.Logs f) : Logs (inDeposits e) :=
  inTable_logs (fun _ ↦ rfl) BlockError.breaksOff_world he fun s out hout ↦
    (h s.deposits out hout).map (f := fun d ↦ { s with deposits := d }) fun _ _ _ hd ↦
      GameState.Change.deposits (s := { s with deposits := _ }) hd

theorem inLoot_logs {e : Recording WorldError GroundLoot α}
    {f : GroundLoot → Except WorldError (Recorded GroundLoot α)} (he : e = .ofAnswer f)
    (h : GroundLoot.Logs f) : Logs (inLoot e) :=
  inTable_logs (fun _ ↦ rfl) BlockError.breaksOff_world he fun s out hout ↦
    (h s.loot out hout).map (f := fun l ↦ { s with loot := l }) fun _ _ _ hl ↦
      GameState.Change.loot (s := { s with loot := _ }) hl

/-! ### The parts of a block -/

theorem character_of_get? {p : Progress} {id : CharacterId} {c : Character}
    (found : p.state.roster.get? id = some c) : character id p = .ok c p := by
  rw [character, bind_of_ok (t := state) rfl, found]
  rfl

theorem character_of_absent {p : Progress} {id : CharacterId}
    (absent : p.state.roster.get? id = none) :
    character id p = .error (.character (.characterNotFound id)) p := by
  rw [character, bind_of_ok (t := state) rfl, absent]
  rfl

theorem character_logs (id : CharacterId) : Logs (character id) := by
  refine state_logs.bind fun s ↦ ?_
  split
  · exact pure_logs _
  · exact throw_logs (BlockError.breaksOff_character _)

end Turn

theorem Roster.createIfNew_logs (c : CreateCharacter) : Roster.Logs fun r ↦ r.createIfNew c := by
  intro r out h
  simp only [createIfNew] at h
  split at h
  · next hrun =>
    cases h
    exact create_logs c.owner c.name c.position r _ hrun
  · cases h
    exact .nil r
  · cases h

theorem Roster.startIfAllowed_logs (grid : Grid) (deposits : Deposits) (id : CharacterId)
    (region : RegionId) : Roster.Logs fun r ↦ r.startIfAllowed grid deposits id region := by
  intro r out h
  simp only [startIfAllowed] at h
  split at h
  · cases h
    exact .nil r
  · exact startMining_logs grid deposits id region r out h

theorem Deposits.assignIfVacant_logs (region : RegionId) (find : Find)
    (prospection : Prospection) :
    Deposits.Logs fun d ↦ d.assignIfVacant region find prospection := by
  intro d out h
  simp only [assignIfVacant] at h
  split at h
  · cases h
    exact .nil d
  · cases h
    exact .nil d
  · exact assign_history h

namespace Turn

variable {α β : Type}

theorem create_logs (c : CreateCharacter) : Logs (create c) :=
  inRoster_logs (Recording.createIfNew_eq c) (Roster.createIfNew_logs c)

theorem stopMining_logs (id : CharacterId) : Logs (inRoster (.stopMining id)) :=
  inRoster_logs (Recording.stopMining_eq id) (Roster.stopMining_logs id)

theorem travel_logs (id : CharacterId) (places : List Coord) : Logs (travel id places) :=
  (inRoster_logs (Recording.setWaypoints_eq id places) (Roster.setWaypoints_logs id places)).bind
    fun _ ↦ stopMining_logs id

theorem mine_logs (id : CharacterId) : Logs (mine id) :=
  state_logs.bind fun s ↦ (character_logs id).bind fun _ ↦
    inRoster_logs (Recording.startIfAllowed_eq s.grid s.deposits id _)
      (Roster.startIfAllowed_logs s.grid s.deposits id _)

theorem pickUp_logs (id : CharacterId) (resource : Resource) (requested : UInt64) :
    Logs (pickUp id resource requested) :=
  (character_logs id).bind fun c ↦
    (inLoot_logs (Recording.pickUp_eq c.position resource requested)
      (GroundLoot.pickUp_logs c.position resource requested)).bind fun taken ↦
        inRoster_logs (Recording.credit_eq id resource taken) (Roster.credit_logs id resource taken)

theorem drop_logs (id : CharacterId) (resource : Resource) (requested : UInt64) :
    Logs (drop id resource requested) :=
  (character_logs id).bind fun c ↦
    (inRoster_logs (Recording.debit_eq id resource _) (Roster.debit_logs id resource _)).bind
      fun _ ↦ inLoot_logs (Recording.dropAt_eq c.position resource _)
        (GroundLoot.dropAt_logs c.position resource _)

theorem settle_logs (region : RegionId) (find : Find) (prospection : Prospection) :
    Logs (settle region find prospection) :=
  inDeposits_logs (Recording.assignIfVacant_eq region find prospection)
    (Deposits.assignIfVacant_logs region find prospection)

theorem prospect_logs (prospector : Prospector) (id : CharacterId) :
    Logs (prospect prospector id) := by
  refine state_logs.bind fun s ↦ (character_logs id).bind fun c ↦ ?_
  split
  · exact pure_logs _
  · simp only
    split
    · exact pure_logs _
    · refine height_logs.bind fun h ↦ ?_
      split
      · exact pure_logs _
      · exact height_logs.bind fun _ ↦ settle_logs _ _ _

theorem directive_logs (prospector : Prospector) (id : CharacterId) (d : Directive) :
    Logs (directive prospector id d) := by
  cases d with
  | waypoints places => exact travel_logs id places
  | mine => exact mine_logs id
  | pickup items => exact Logs.forM fun e ↦ pickUp_logs id e.1 e.2
  | drop items => exact Logs.forM fun e ↦ drop_logs id e.1 e.2
  | prospect => exact prospect_logs prospector id

theorem move_logs (prospector : Prospector) (id : CharacterId) (m : CharacterMove) :
    Logs (move prospector id m) := by
  refine state_logs.bind fun s ↦ ?_
  split
  · exact Logs.forM (directive_logs prospector id)
  · exact pure_logs _

theorem moves_logs (prospector : Prospector) (all : List (CharacterId × CharacterMove)) :
    Logs (moves prospector all) :=
  Logs.forM fun e ↦ move_logs prospector e.1 e.2

theorem step_logs (id : CharacterId) (s : Step) : Logs (step id s) := by
  refine (inRoster_logs (Recording.setWaypoints_eq id s.waypoints)
    (Roster.setWaypoints_logs id s.waypoints)).bind fun _ ↦ (character_logs id).bind fun c ↦ ?_
  split
  · exact (stopMining_logs id).bind fun _ ↦
      inRoster_logs (Recording.setPosition_eq id s.position)
        (Roster.setPosition_logs id s.position)
  · exact pure_logs _

theorem walk_logs (policy : Movement) (id : CharacterId) : Logs (walk policy id) := by
  refine state_logs.bind fun s ↦ ?_
  split
  · exact pure_logs _
  · exact step_logs id _

theorem movement_logs (policy : Movement) : Logs (movement policy) :=
  state_logs.bind fun _ ↦ Logs.forM (walk_logs policy)

/-- Also where stopping the miners breaks off half-way, those that were stopped are recorded. -/
theorem stopRegion_logs (region : RegionId) : Logs (inRoster (.stopRegion region)) := by
  rw [inRoster_stopRegion]
  exact state_logs.bind fun _ ↦ (Logs.forM stopMining_logs).bind fun _ ↦ pure_logs _

theorem extractOne_logs (rate : UInt64) (id : CharacterId) (region : RegionId) :
    Logs (extractOne rate id region) := by
  refine state_logs.bind fun s ↦ ?_
  split
  · exact pure_logs _
  · refine (inDeposits_logs (Recording.extract_eq region rate)
      (Deposits.extract_logs region rate)).bind fun extracted ↦ ?_
    split
    · exact (stopMining_logs id).bind fun _ ↦ pure_logs _
    · refine (inRoster_logs (Recording.credit_eq id _ _) (Roster.credit_logs id _ _)).bind
        fun _ ↦ ?_
      refine state_logs.bind fun s' ↦ ?_
      simp only
      split
      · exact (stopRegion_logs region).bind fun _ ↦ pure_logs _
      · exact pure_logs _

theorem extraction_logs (rate : UInt64) : Logs (extraction rate) :=
  state_logs.bind fun _ ↦ Logs.mapM fun e ↦ (extractOne_logs rate e.1 e.2).bind fun _ ↦
    pure_logs _

theorem audit_logs : Logs audit := by
  refine height_logs.bind fun h ↦ state_logs.bind fun s ↦ ?_
  split
  · exact throw_logs nofun
  · split
    · exact pure_logs _
    · exact throw_logs nofun

theorem block_logs (rules : BlockRules) (b : BlockInput) : Logs (block rules b) :=
  (Logs.forM create_logs).bind fun _ ↦ (moves_logs rules.prospector b.moves).bind fun _ ↦
    (movement_logs rules.movement).bind fun _ ↦ (extraction_logs rules.rate).bind fun _ ↦
      audit_logs

end Turn

end MiningGame
