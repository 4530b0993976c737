import MiningGame.Proofs.Balance

/-!
# How blocks fail

From a balanced state a block can fail in two ways only: a prospection finds more than can be
counted, or there is no number left for a new character (`Turn.block_yields`). No other check of
an amount, a sum or a character ever refuses anything.
-/

namespace MiningGame

/-- A character prospects a free region and finds more than the total can count. -/
def ProspectionOverflows (prospector : Prospector) (height : UInt64) (id : CharacterId)
    (s : GameState) : Prop :=
  ∃ c find, s.roster.get? id = some c ∧ c.isMoving = false ∧
    s.deposits.resource? (s.grid.regionAt c.position) = none ∧
    prospector (s.grid.regionAt c.position) height = some find ∧ find.amount ≠ 0 ∧
    UInt64.size ≤ s.deposits.prospectedOf find.resource + find.amount.toNat

/-- The last number was reached, and a character of a new name is to be created. -/
def IdsRunOut (c : CreateCharacter) (s : GameState) : Prop :=
  s.roster.nextId.value = Word.largest ∧
    s.roster.toList.any (fun x ↦ x.owner == c.owner && x.name == c.name) = false

/-- The two ways in which a block can break off. -/
inductive BlockFailure (prospector : Prospector) (b : BlockInput) : BlockError → GameState → Prop
  | overflow {id : CharacterId} {m : CharacterMove} {s : GameState}
      (moved : (id, m) ∈ (CharacterMove.merge b.moves).entries)
      (asked : .prospect ∈ m.resolve.directives)
      (found : ProspectionOverflows prospector b.height id s) :
      BlockFailure prospector b (.world .arithmeticOverflow) s
  | exhausted {c : CreateCharacter} {s : GameState} (asked : c ∈ b.creates) (last : IdsRunOut c s) :
      BlockFailure prospector b (.character .idsExhausted) s

namespace Turn

variable {h : UInt64} {ids : List CharacterId} {id : CharacterId} {P : GameState → Prop}
  {E : BlockError → Progress → Prop}

/-- A turn that keeps the balance. -/
abbrev Balances {α : Type} (h : UInt64) (ids : List CharacterId) (t : Turn α)
    (E : BlockError → Progress → Prop) : Prop :=
  Yields h ids GameState.Balanced t (fun _ ↦ GameState.Balanced) E

theorem Yields.mono {α : Type} {P' : GameState → Prop} {Q : α → GameState → Prop} {t : Turn α}
    (ht : Yields h ids P t Q E) (hP : ∀ s, P' s → P s) : Yields h ids P' t Q E :=
  Contract.mono ht (fun p hp ↦ ⟨hp.1, hp.2.1, hP p.state hp.2.2⟩) (fun _ _ hQ ↦ hQ)
    fun _ _ hE ↦ hE

/-- What is done with a character that exists may rely on it. -/
theorem Yields.present (id : CharacterId) {α : Type} {Q : α → GameState → Prop} {t : Turn α}
    (hid : ∀ s, P s → ∃ c, s.roster.get? id = some c) (ht : Yields h [id] P t Q E) :
    Yields h [] P t Q E := by
  intro p hp
  obtain ⟨c, found⟩ := hid p.state hp.2.2
  have hready : Ready [id] p.state := hp.2.1.of_get? found
  cases hrun : t p with
  | ok a p' =>
    obtain ⟨hheight, hstill, hQ⟩ := ht.of_ok ⟨hp.1, hready, hp.2.2⟩ hrun
    exact ⟨hheight, hstill.weaken, hQ⟩
  | error e p' => exact ht.of_error ⟨hp.1, hready, hp.2.2⟩ hrun

theorem forM_balances {α : Type} {f : α → Turn Unit} {l : List α}
    (hf : ∀ a ∈ l, Balances h ids (f a) E) : Balances h ids (l.forM f) E :=
  Contract.forM hf

theorem mapM_balances {α β : Type} {f : α → Turn β} {l : List α}
    (hf : ∀ a ∈ l, Balances h ids (f a) E) : Balances h ids (l.mapM f) E :=
  Contract.mapM hf

/-! ### Units on their way -/

theorem credit_yields (resource : Resource) (amount : UInt64) :
    Yields h [id] (GameState.InFlight resource amount)
      (inRoster (.credit id resource amount)) (fun _ ↦ GameState.Balanced) E := by
  refine inRoster_yields (Recording.credit_eq id resource amount)
    (Roster.credit_logs id resource amount) fun s hready hflight ↦ ?_
  obtain ⟨c, found⟩ := hready.present id (List.mem_singleton_self id)
  have hcarried := Roster.amount_le_carriedOf found resource
  have hbound := s.deposits.prospectedOf_lt resource
  have hresource := hflight resource
  rw [units_self] at hresource
  have hfits : (c.inventory.amount resource).toNat + amount.toNat < UInt64.size := by omega
  obtain ⟨out, hout, hafter⟩ := Roster.credit_ok found hfits
  refine ⟨out, hout, fun r ↦ ?_⟩
  have hr := hflight r
  have hr' := hafter r
  dsimp only
  omega

theorem debit_yields {resource : Resource} {amount : UInt64} {c : Character}
    (henough : amount.toNat ≤ (c.inventory.amount resource).toNat) :
    Yields h ids (fun s ↦ s.Balanced ∧ s.roster.get? id = some c)
      (inRoster (.debit id resource amount)) (fun _ ↦ GameState.InFlight resource amount) E := by
  refine inRoster_yields (Recording.debit_eq id resource amount)
    (Roster.debit_logs id resource amount) fun s _ hs ↦ ?_
  obtain ⟨hbalanced, found⟩ := hs
  obtain ⟨out, hout, hafter⟩ := Roster.debit_ok found henough
  refine ⟨out, hout, fun r ↦ ?_⟩
  have hr := hbalanced r
  have hr' := hafter r
  dsimp only
  omega

theorem dropAt_yields (position : Coord) (resource : Resource) (amount : UInt64) :
    Yields h ids (GameState.InFlight resource amount)
      (inLoot (.dropAt position resource amount)) (fun _ ↦ GameState.Balanced) E := by
  have he := Recording.dropAt_eq position resource amount
  refine Logs.yields (inLoot_logs he (GroundLoot.dropAt_logs position resource amount))
    fun p hp ↦ ?_
  have hflight := hp.2.2
  have hlying := p.state.loot.amountAt_le_lyingOf position resource
  have hbound := p.state.deposits.prospectedOf_lt resource
  have hresource := hflight resource
  rw [units_self] at hresource
  have hfits : (p.state.loot.amountAt position resource).toNat + amount.toNat < UInt64.size := by
    omega
  obtain ⟨out, hout, hafter⟩ := GroundLoot.dropAt_ok hfits
  rw [inLoot_eq he, onLoot?, hout]
  intro r
  have hr := hflight r
  have hr' := hafter r
  dsimp only
  omega

theorem pickUpAt_yields (position : Coord) (resource : Resource) (requested : UInt64) :
    Yields h ids GameState.Balanced (inLoot (.pickUp position resource requested))
      (fun taken ↦ GameState.InFlight resource taken) E := by
  refine Logs.yields (inLoot_logs (Recording.pickUp_eq position resource requested)
    (GroundLoot.pickUp_logs position resource requested)) fun p hp ↦ ?_
  rw [inLoot_pickUp]
  intro r
  have hr := hp.2.2 r
  have hr' := p.state.loot.pickUp_lyingOf position resource requested r
  dsimp only
  omega

/-- What was extracted, if anything, is on its way. -/
theorem extract_yields (region : RegionId) (rate : UInt64) :
    Yields h ids GameState.Balanced (inDeposits (.extract region rate))
      (fun extracted s ↦ match extracted with
        | none => s.Balanced
        | some (resource, taken) => s.InFlight resource taken) E := by
  refine Logs.yields (inDeposits_logs (Recording.extract_eq region rate)
    (Deposits.extract_logs region rate)) fun p hp ↦ ?_
  have hbalanced := hp.2.2
  obtain ⟨hprospected, hremaining⟩ := p.state.deposits.extract_totals region rate
  rw [inDeposits_extract]
  change match (p.state.deposits.extract region rate).answer with
    | none => GameState.Balanced _
    | some (resource, taken) => GameState.InFlight resource taken _
  cases hanswer : (p.state.deposits.extract region rate).answer with
  | none =>
    rw [hanswer] at hremaining
    intro r
    have hr := hbalanced r
    rw [hremaining]
    exact hr
  | some entry =>
    obtain ⟨resource, taken⟩ := entry
    rw [hanswer] at hremaining
    intro r
    have hr := hbalanced r
    have hr' := hremaining r
    have hsame := hprospected r
    dsimp only
    omega

/-! ### The parts of a block -/

theorem replace_balances {α : Type} [DecidableEq α] (part : CharacterPart α) {value : α}
    {e : Recording CharacterError Roster Unit}
    (he : e = .ofAnswer fun r ↦ r.replace part id value)
    (hlogs : Roster.Logs fun r ↦ r.replace part id value) (hid : id ∈ ids) :
    Balances h ids (inRoster e) E := by
  refine neutral_yields he hlogs fun s hready ↦ ?_
  obtain ⟨c, found⟩ := hready.present id hid
  exact Roster.replace_ok part found value

theorem setMining_balances (hid : id ∈ ids) (status : MiningStatus) :
    Balances h ids (inRoster (.setMining id status)) E :=
  replace_balances .mining (Recording.setMining_eq id status) (Roster.setMining_logs id status) hid

theorem setWaypoints_balances (hid : id ∈ ids) (waypoints : List Coord) :
    Balances h ids (inRoster (.setWaypoints id waypoints)) E :=
  replace_balances .waypoints (Recording.setWaypoints_eq id waypoints)
    (Roster.setWaypoints_logs id waypoints) hid

theorem setPosition_balances (hid : id ∈ ids) (position : Coord) :
    Balances h ids (inRoster (.setPosition id position)) E :=
  replace_balances .position (Recording.setPosition_eq id position)
    (Roster.setPosition_logs id position) hid

theorem stopRegion_balances (region : RegionId) :
    Balances h ids (inRoster (.stopRegion region)) E := by
  refine Logs.yields (stopRegion_logs region) fun p hp ↦ ?_
  have hbalanced := hp.2.2
  obtain ⟨out, -, hcarried, hrun⟩ := stopRegion_run hp.2.1.wellFormed.roster region
  rw [hrun]
  intro r
  rw [hcarried]
  exact hbalanced r

theorem create_balances (c : CreateCharacter)
    (hE : ∀ p, IdsRunOut c p.state → E (.character .idsExhausted) p) :
    Balances h ids (create c) E := by
  refine Logs.yields (create_logs c) fun p hp ↦ ?_
  have hbalanced := hp.2.2
  rw [create, inRoster_eq (Recording.createIfNew_eq c), onRoster, Roster.createIfNew, Roster.create]
  by_cases hknown : p.state.roster.toList.any (fun x ↦ x.owner == c.owner && x.name == c.name)
  · simp only [hknown, if_true]
    exact hbalanced
  · cases hnext : p.state.roster.nextId.next? with
    | none =>
      simp only [hknown]
      exact hE p ⟨Roster.next?_eq_none_iff.1 hnext, Bool.not_eq_true _ ▸ hknown⟩
    | some next =>
      simp only [hknown]
      intro r
      have hcarried := Roster.carriedOf_create hp.2.1.wellFormed.roster next c.owner c.name
        c.position r
      dsimp only
      rw [hcarried]
      exact hbalanced r

theorem travel_balances (hid : id ∈ ids) (places : List Coord) :
    Balances h ids (travel id places) E :=
  (setWaypoints_balances hid places).bind fun _ ↦ setMining_balances hid .idle

theorem mine_balances (hid : id ∈ ids) : Balances h ids (mine id) E := by
  refine state_yields.bind fun s ↦ ?_
  refine (character_yields hid).bind fun c ↦ ?_
  refine Yields.mono (P := GameState.Balanced) ?_ fun _ hs ↦ hs.1.1
  refine neutral_yields (Recording.startIfAllowed_eq s.grid s.deposits id _)
    (Roster.startIfAllowed_logs s.grid s.deposits id _) fun s' hready ↦ ?_
  obtain ⟨c', found⟩ := hready.present id hid
  obtain ⟨reason, hrun⟩ | ⟨out, hrun, hcarried⟩ := Roster.startMining_cases found s.grid
    s.deposits (s.grid.regionAt c.position)
  · refine ⟨⟨s'.roster, (), []⟩, ?_, fun _ ↦ rfl⟩
    simp only [Roster.startIfAllowed, hrun]
  · refine ⟨out, ?_, hcarried⟩
    simp only [Roster.startIfAllowed, hrun]

theorem pickUp_balances (resource : Resource) (requested : UInt64) :
    Balances h [id] (pickUp id resource requested) E := by
  refine (character_yields (List.mem_singleton_self id)).bind fun c ↦ ?_
  refine Yields.mono (P := GameState.Balanced) ?_ fun _ hs ↦ hs.1
  exact (pickUpAt_yields c.position resource requested).bind fun taken ↦
    credit_yields resource taken

theorem drop_balances (hid : id ∈ ids) (resource : Resource) (requested : UInt64) :
    Balances h ids (drop id resource requested) E := by
  refine (character_yields hid).bind fun c ↦ ?_
  have henough : (min requested (c.inventory.amount resource)).toNat ≤
      (c.inventory.amount resource).toNat :=
    Word.toNat_min_le_right _ _
  exact (debit_yields henough).bind fun _ ↦ dropAt_yields c.position resource _

/-- Settling a find in a region without deposit can only fail on the total. -/
theorem settle_balances {region : RegionId} {find : Find} {prospection : Prospection}
    (hP : ∀ s, P s → s.Balanced ∧ s.deposits.resource? region = none)
    (hE : ∀ p, P p.state → find.amount ≠ 0 →
      UInt64.size ≤ p.state.deposits.prospectedOf find.resource + find.amount.toNat →
      E (.world .arithmeticOverflow) p) :
    Yields h ids P (settle region find prospection) (fun _ ↦ GameState.Balanced) E := by
  refine Logs.yields (settle_logs region find prospection) fun p hp ↦ ?_
  obtain ⟨hbalanced, hvacant⟩ := hP p.state hp.2.2
  rw [settle, inDeposits_eq (Recording.assignIfVacant_eq region find prospection), onDeposits?,
    Deposits.assignIfVacant]
  by_cases hzero : find.amount = 0
  · have hrun : p.state.deposits.assign region find.resource find.amount prospection =
        .error (.emptyDeposit region) := by
      unfold Deposits.assign
      rw [hvacant]
      exact if_pos hzero
    simp only [hrun]
    exact hbalanced
  · cases hsum : Word.add? (p.state.deposits.prospected.amount find.resource) find.amount with
    | none =>
      have hrun : p.state.deposits.assign region find.resource find.amount prospection =
          .error .arithmeticOverflow := by
        unfold Deposits.assign
        simp only [hvacant, if_neg hzero, hsum]
      simp only [hrun]
      exact hE p hp.2.2 hzero (Word.add?_eq_none_iff.1 hsum)
    | some total =>
      have hrun : ∃ out, p.state.deposits.assign region find.resource find.amount prospection =
          .ok out := by
        unfold Deposits.assign
        simp only [hvacant, if_neg hzero, hsum]
        exact ⟨_, rfl⟩
      obtain ⟨out, hrun⟩ := hrun
      simp only [hrun]
      intro r
      obtain ⟨hprospected, hremaining⟩ := Deposits.assign_totals hrun r
      have hr := hbalanced r
      dsimp only
      omega

theorem prospect_balances {prospector : Prospector} (hid : id ∈ ids)
    (hE : ∀ p, ProspectionOverflows prospector h id p.state → E (.world .arithmeticOverflow) p) :
    Balances h ids (prospect prospector id) E := by
  refine state_yields.bind fun s ↦ ?_
  refine (character_yields hid).bind fun c ↦ ?_
  split
  · exact pure_yields fun _ hs ↦ hs.1.1
  · next hmoving =>
    simp only
    split
    · exact pure_yields fun _ hs ↦ hs.1.1
    · next hsettled =>
      refine height_yields.bind fun h' ↦ ?_
      split
      · exact pure_yields fun _ hs ↦ hs.1.1.1
      · next find hfind =>
        refine height_yields.bind fun h'' ↦ ?_
        have hvacant : s.deposits.resource? (s.grid.regionAt c.position) = none := by
          simpa using hsettled
        refine settle_balances ?_ ?_
        · rintro s' ⟨⟨⟨⟨hbalanced, rfl⟩, -⟩, -⟩, -⟩
          exact ⟨hbalanced, hvacant⟩
        · rintro p ⟨⟨⟨⟨-, rfl⟩, found⟩, rfl⟩, -⟩ hpositive hover
          exact hE p ⟨c, find, found, Bool.eq_false_iff.2 hmoving, hvacant, hfind, hpositive, hover⟩

theorem directive_balances {prospector : Prospector} {d : Directive}
    (hE : ∀ p, d = .prospect → ProspectionOverflows prospector h id p.state →
      E (.world .arithmeticOverflow) p) :
    Balances h [id] (directive prospector id d) E := by
  have hid : id ∈ [id] := List.mem_singleton_self id
  cases d with
  | waypoints places => exact travel_balances hid places
  | mine => exact mine_balances hid
  | pickup items => exact forM_balances fun e _ ↦ pickUp_balances e.1 e.2
  | drop items => exact forM_balances fun e _ ↦ drop_balances hid e.1 e.2
  | prospect => exact prospect_balances hid fun p ↦ hE p rfl

theorem move_balances {prospector : Prospector} {m : CharacterMove}
    (hE : ∀ p, .prospect ∈ m.resolve.directives → ProspectionOverflows prospector h id p.state →
      E (.world .arithmeticOverflow) p) :
    Balances h [] (move prospector id m) E := by
  refine state_yields.bind fun s ↦ ?_
  split
  · next hexists =>
    have hall : Balances h [id] (m.resolve.directives.forM (directive prospector id)) E :=
      forM_balances fun d hd ↦ directive_balances fun p hprospect ↦ hE p (hprospect ▸ hd)
    refine Yields.present _ ?_ (hall.mono fun s' hs ↦ hs.1)
    rintro s' ⟨-, rfl⟩
    exact Option.isSome_iff_exists.1 hexists
  · exact pure_yields fun _ hs ↦ hs.1

theorem moves_balances {prospector : Prospector} {all : List (CharacterId × CharacterMove)}
    (hE : ∀ p id m, (id, m) ∈ (CharacterMove.merge all).entries →
      .prospect ∈ m.resolve.directives → ProspectionOverflows prospector h id p.state →
      E (.world .arithmeticOverflow) p) :
    Balances h [] (moves prospector all) E :=
  forM_balances fun e he ↦ move_balances fun p ↦ hE p e.1 e.2 he

theorem step_balances (s : Step) : Balances h [id] (step id s) E := by
  have hid : id ∈ [id] := List.mem_singleton_self id
  refine (setWaypoints_balances hid s.waypoints).bind fun _ ↦ ?_
  refine (character_yields hid).bind fun c ↦ ?_
  refine Yields.mono (P := GameState.Balanced) ?_ fun _ hs ↦ hs.1
  split
  · exact (setMining_balances hid .idle).bind fun _ ↦ setPosition_balances hid s.position
  · exact pure_yields fun _ hs ↦ hs

theorem movement_balances (policy : Movement) : Balances h [] (movement policy) E := by
  refine state_yields.bind fun s ↦ ?_
  refine Yields.mono (P := GameState.Balanced) ?_ fun _ hs ↦ hs.1
  refine forM_balances fun id _ ↦ ?_
  refine state_yields.bind fun s' ↦ ?_
  split
  · exact pure_yields fun _ hs ↦ hs.1
  · next hstep =>
    obtain ⟨c, found, -⟩ := Option.bind_eq_some_iff.1 hstep
    refine Yields.present _ ?_ ((step_balances _).mono fun _ hs ↦ hs.1)
    rintro s'' ⟨-, rfl⟩
    exact ⟨c, found⟩

theorem extractOne_balances (rate : UInt64) (id : CharacterId) (region : RegionId) :
    Balances h [] (extractOne rate id region) E := by
  refine state_yields.bind fun s ↦ ?_
  split
  · exact pure_yields fun _ hs ↦ hs.1
  · next hactive =>
    have hid : id ∈ [id] := List.mem_singleton_self id
    refine Yields.present id ?_ ?_
    · rintro s' ⟨-, rfl⟩
      cases hget : s.roster.get? id with
      | none =>
        rw [hget] at hactive
        exact absurd rfl hactive
      | some c => exact ⟨c, rfl⟩
    · refine Yields.mono (P := GameState.Balanced) ?_ fun _ hs ↦ hs.1
      refine (extract_yields region rate).bind fun extracted ↦ ?_
      split
      · exact (setMining_balances hid .idle).bind fun _ ↦ pure_yields fun _ hs ↦ hs
      · next resource taken =>
        refine (credit_yields resource taken).bind fun _ ↦ ?_
        refine state_yields.bind fun s' ↦ ?_
        refine Yields.mono (P := GameState.Balanced) ?_ fun _ hs ↦ hs.1
        simp only
        split
        · refine Yields.bind (Q := fun _ ↦ GameState.Balanced) ?_ fun _ ↦
            pure_yields fun _ hs ↦ hs
          exact stopRegion_balances region
        · exact pure_yields fun _ hs ↦ hs

theorem extraction_balances (rate : UInt64) : Balances h [] (extraction rate) E := by
  refine state_yields.bind fun s ↦ ?_
  refine Yields.mono (P := GameState.Balanced) ?_ fun _ hs ↦ hs.1
  refine mapM_balances fun e _ ↦ ?_
  exact (extractOne_balances rate e.1 e.2).bind fun _ ↦ pure_yields fun _ hs ↦ hs

theorem audit_balances : Balances h ids audit E := by
  refine Logs.yields audit_logs fun p hp ↦ ?_
  obtain ⟨totals, htotals, hpass⟩ := hp.2.2.audit p.undo.height
  have hrun : audit p = .ok () p := by
    unfold audit
    rw [bind_of_ok (t := height) rfl, bind_of_ok (t := state) rfl]
    simp only [htotals, hpass]
    rfl
  rw [hrun]
  exact hp.2.2

/-- A block of a balanced state ends in a balanced state or fails in one of the two ways. -/
theorem block_balances (rules : BlockRules) (b : BlockInput) :
    Balances b.height [] (block rules b) fun e p ↦ BlockFailure rules.prospector b e p.state := by
  refine (forM_balances fun c hc ↦ create_balances c fun p ↦ .exhausted hc).bind fun _ ↦ ?_
  refine (moves_balances fun p id m ↦ .overflow).bind fun _ ↦ ?_
  refine (movement_balances rules.movement).bind fun _ ↦ ?_
  exact (extraction_balances rules.rate).bind fun _ ↦ audit_balances

end Turn

section Block

variable {rules : BlockRules} {b : BlockInput} {s : GameState}

theorem processBlock_balanced {undo : BlockUndo} {s' : GameState}
    (h : processBlock rules b s = .ok undo s') (hs : s.WellFormed) (hbalanced : s.Balanced) :
    s'.Balanced := by
  obtain ⟨hrun, -, -, -⟩ := processBlock_ok h hs
  have hready : Ready [] s := ⟨hs, fun _ hid ↦ nomatch hid⟩
  obtain ⟨-, -, hbalanced'⟩ := (Turn.block_balances rules b).of_ok ⟨rfl, hready, hbalanced⟩ hrun
  exact hbalanced'

theorem processBlock_failure {e : BlockError} {s' : GameState}
    (h : processBlock rules b s = .error e s') (hs : s.WellFormed) (hbalanced : s.Balanced) :
    ∃ p, Turn.block rules b ⟨s, .new b.height⟩ = .error e p ∧
      BlockFailure rules.prospector b e p.state := by
  obtain ⟨-, -, p, hrun⟩ := processBlock_error h hs
  have hready : Ready [] s := ⟨hs, fun _ hid ↦ nomatch hid⟩
  exact ⟨p, hrun, (Turn.block_balances rules b).of_error ⟨rfl, hready, hbalanced⟩ hrun⟩

end Block

end MiningGame
