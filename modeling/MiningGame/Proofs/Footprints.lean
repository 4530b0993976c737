import MiningGame.Proofs.Merging

/-!
# Footprints

Every delta is about one character, one region or one place, and a change leaves everything alone
that its delta is not about. So what a turn leaves alone can be told from the deltas it may record:
a turn is confined to deltas that pass a test if it records no others, whether it succeeds or breaks
off (`Turn.Confines`). What a character does in its turn and how it walks is confined to a few
deltas.
-/

namespace MiningGame

/-- What a delta can be about. -/
inductive Subject where
  | character (id : CharacterId)
  | region (region : RegionId)
  | place (position : Coord)
  deriving DecidableEq

namespace UndoDelta

def subject : UndoDelta → Subject
  | characterCreated id => .character id
  | miningStatus id _ => .character id
  | waypoints id _ => .character id
  | position id _ => .character id
  | inventoryCredited id _ _ => .character id
  | inventoryDebited id _ _ => .character id
  | regionProspected region .. => .region region
  | regionExtracted region .. => .region region
  | lootDropped place .. => .place place
  | lootPickedUp place .. => .place place

/-- Nobody has come or gone elsewhere. -/
def Still : UndoDelta → Prop
  | characterCreated _ => False
  | position .. => False
  | _ => True

/-- The delta takes a character out of the game. -/
def IsCreation : UndoDelta → Prop
  | characterCreated _ => True
  | _ => False

/-- The delta takes a find back. -/
def IsFind : UndoDelta → Prop
  | regionProspected .. => True
  | _ => False

/-- The delta is about a character that has stayed where it is. -/
def InPlace (id : CharacterId) (δ : UndoDelta) : Prop := δ.subject = .character id ∧ δ.Still

/-- The delta is about something else, and nobody has come or gone elsewhere. -/
def Spares (x : Subject) (δ : UndoDelta) : Prop := δ.subject ≠ x ∧ δ.Still

theorem still_of_region {δ : UndoDelta} {region : RegionId} (h : δ.subject = .region region) :
    δ.Still := by
  cases δ <;> trivial

theorem still_of_place {δ : UndoDelta} {place : Coord} (h : δ.subject = .place place) :
    δ.Still := by
  cases δ <;> trivial

end UndoDelta

/-! ## Changes leave alone what they are not about -/

/-- The states agree in everything that a delta is not about. -/
structure GameState.Outside (δ : UndoDelta) (s s' : GameState) : Prop where
  grid : s'.grid = s.grid
  character : ∀ id, δ.subject ≠ .character id → s'.roster.get? id = s.roster.get? id
  nextId : ¬ δ.IsCreation → s'.roster.nextId = s.roster.nextId
  record : ∀ region, δ.subject ≠ .region region →
    s'.deposits.record? region = s.deposits.record? region
  prospected : ¬ δ.IsFind → s'.deposits.prospected = s.deposits.prospected
  pile : ∀ place, δ.subject ≠ .place place → s'.loot.piles.get? place = s.loot.piles.get? place

namespace GameState.Outside

variable {s : GameState} {δ : UndoDelta}

theorem of_roster {r : Roster}
    (hcharacter : ∀ id, δ.subject ≠ .character id → r.get? id = s.roster.get? id)
    (hnextId : ¬ δ.IsCreation → r.nextId = s.roster.nextId) :
    Outside δ s { s with roster := r } where
  grid := rfl
  character := hcharacter
  nextId := hnextId
  record _ _ := rfl
  prospected _ := rfl
  pile _ _ := rfl

theorem of_store {id : CharacterId} (hsubject : δ.subject = .character id) (c : Character) :
    Outside δ s { s with roster := s.roster.store id c } := by
  refine of_roster (fun k hk ↦ ?_) fun _ ↦ rfl
  have hne : k ≠ id := by
    rintro rfl
    exact hk hsubject
  rw [Roster.get?_store, if_neg hne]

theorem of_deposits {d : Deposits}
    (hrecord : ∀ region, δ.subject ≠ .region region → d.record? region = s.deposits.record? region)
    (hprospected : ¬ δ.IsFind → d.prospected = s.deposits.prospected) :
    Outside δ s { s with deposits := d } where
  grid := rfl
  character _ _ := rfl
  nextId _ := rfl
  record := hrecord
  prospected := hprospected
  pile _ _ := rfl

theorem of_loot {l : GroundLoot} {position : Coord} (hsubject : δ.subject = .place position)
    (hpile : ∀ place, place ≠ position → l.piles.get? place = s.loot.piles.get? place) :
    Outside δ s { s with loot := l } where
  grid := rfl
  character _ _ := rfl
  nextId _ := rfl
  record _ _ := rfl
  prospected _ := rfl
  pile place hplace := hpile place fun heq ↦ hplace (heq ▸ hsubject)

end GameState.Outside

theorem GameState.Change.outside {s s' : GameState} {δ : UndoDelta} (h : Change s δ s') :
    Outside δ s s' := by
  cases h with
  | roster change =>
    cases change with
    | create =>
      refine .of_roster (fun k hk ↦ ?_) (absurd trivial)
      exact Table.get?_insert_of_ne _ _ fun heq ↦ hk (heq ▸ rfl)
    | mining | waypoints | position | credit | debit => exact .of_store rfl _
  | deposits change =>
    cases change with
    | assign =>
      refine .of_deposits (fun k hk ↦ ?_) (absurd trivial)
      exact Table.get?_insert_of_ne _ _ fun heq ↦ hk (heq ▸ rfl)
    | extract =>
      refine .of_deposits (fun k hk ↦ ?_) fun _ ↦ rfl
      exact Table.get?_insert_of_ne _ _ fun heq ↦ hk (heq ▸ rfl)
  | loot change =>
    cases change with
    | drop | pickUp => exact .of_loot rfl fun _ hplace ↦ s.loot.piles_setPile_of_ne _ hplace

/-! ## Changes of positions -/

namespace Roster.Change

variable {r r' : Roster} {δ : UndoDelta} {id : CharacterId}

theorem position_of_still (h : Change r δ r') (hδ : δ.Still) :
    (r'.get? id).map Character.position = (r.get? id).map Character.position := by
  have hstore : ∀ {k c c'}, r.get? k = some c → c'.position = c.position →
      ((r.store k c').get? id).map Character.position = (r.get? id).map Character.position := by
    intro k c c' found hsame
    rw [get?_store]
    split
    · next heq => rw [heq, found, Option.map_some, Option.map_some, hsame]
    · rfl
  cases h with
  | create => cases hδ
  | mining found => exact hstore found rfl
  | waypoints found => exact hstore found rfl
  | position => cases hδ
  | credit found => exact hstore found rfl
  | debit found => exact hstore found rfl

end Roster.Change

theorem GameState.Change.position_of_still {s s' : GameState} {δ : UndoDelta} {id : CharacterId}
    (h : Change s δ s') (hδ : δ.Still) :
    (s'.roster.get? id).map Character.position = (s.roster.get? id).map Character.position := by
  cases h with
  | roster change => exact change.position_of_still hδ
  | deposits => rfl
  | loot => rfl

/-- A history of changes whose deltas pass a test keeps what all such changes keep. -/
theorem History.view_eq {σ β : Type} {R : σ → UndoDelta → σ → Prop} {K : UndoDelta → Prop}
    {s s' : σ} {δs : List UndoDelta} (h : History R s δs s') (f : σ → β) (hK : ∀ δ ∈ δs, K δ)
    (hf : ∀ s δ s', R s δ s' → K δ → f s' = f s) : f s' = f s := by
  induction h with
  | nil => rfl
  | cons first _ ih =>
    obtain ⟨hfirst, hrest⟩ := List.forall_mem_cons.1 hK
    exact (ih hrest).trans (hf _ _ _ first hfirst)

/-- The second progress comes from the first by changes that were recorded, and their deltas pass a
test. -/
def Confined (K : UndoDelta → Prop) (o p : Progress) : Prop :=
  ∃ δs, (∀ δ ∈ δs, K δ) ∧ p.undo = o.undo.append δs ∧ History GameState.Change o.state δs p.state

namespace Confined

variable {K : UndoDelta → Prop} {o p p' : Progress} {id : CharacterId} {region : RegionId}
  {place : Coord}

theorem refl (K : UndoDelta → Prop) (p : Progress) : Confined K p p :=
  ⟨[], List.forall_mem_nil _, by simp [BlockUndo.append], .nil p.state⟩

theorem view_eq {β : Type} (f : GameState → β) (h : Confined K o p)
    (hf : ∀ s δ s', GameState.Change s δ s' → K δ → f s' = f s) : f p.state = f o.state := by
  obtain ⟨δs, hδs, -, hhistory⟩ := h
  exact hhistory.view_eq f hδs hf

theorem get? (h : Confined K o p) (hK : ∀ δ, K δ → δ.subject ≠ .character id) :
    p.state.roster.get? id = o.state.roster.get? id :=
  h.view_eq (fun s ↦ s.roster.get? id) fun _ _ _ hchange hδ ↦
    hchange.outside.character id (hK _ hδ)

theorem record? (h : Confined K o p) (hK : ∀ δ, K δ → δ.subject ≠ .region region) :
    p.state.deposits.record? region = o.state.deposits.record? region :=
  h.view_eq (fun s ↦ s.deposits.record? region) fun _ _ _ hchange hδ ↦
    hchange.outside.record region (hK _ hδ)

theorem pile (h : Confined K o p) (hK : ∀ δ, K δ → δ.subject ≠ .place place) :
    p.state.loot.piles.get? place = o.state.loot.piles.get? place :=
  h.view_eq (fun s ↦ s.loot.piles.get? place) fun _ _ _ hchange hδ ↦
    hchange.outside.pile place (hK _ hδ)

theorem position (h : Confined K o p) (hK : ∀ δ, K δ → δ.Still) (id : CharacterId) :
    (p.state.roster.get? id).map Character.position =
      (o.state.roster.get? id).map Character.position :=
  h.view_eq (fun s ↦ (s.roster.get? id).map Character.position) fun _ _ _ hchange hδ ↦
    hchange.position_of_still (hK _ hδ)

end Confined

/-! ## Turns that record few deltas -/

/-- An operation on the roster records only what is about a character that has stayed in place. -/
def Roster.InPlace {α : Type} (id : CharacterId)
    (f : Roster → Except CharacterError (Recorded Roster α)) : Prop :=
  ∀ r out, f r = .ok out → ∀ δ ∈ out.deltas, δ.InPlace id

namespace Roster

variable {r : Roster} {id : CharacterId}

theorem replace_deltas {α : Type} [DecidableEq α] {part : CharacterPart α} {value : α}
    {out : Recorded Roster Unit} (h : r.replace part id value = .ok out) :
    ∀ δ ∈ out.deltas, ∃ previous, δ = part.delta id previous := by
  obtain ⟨c, -, h⟩ := bind_eq_ok_iff.1 h
  split at h
  · cases h
    exact List.forall_mem_nil _
  · cases h
    intro δ hδ
    exact ⟨_, List.mem_singleton.1 hδ⟩

theorem setMining_inPlace (id : CharacterId) (status : MiningStatus) :
    InPlace id fun r ↦ r.setMining id status := by
  intro r out h δ hδ
  obtain ⟨previous, rfl⟩ := replace_deltas h δ hδ
  exact ⟨rfl, trivial⟩

theorem setWaypoints_inPlace (id : CharacterId) (places : List Coord) :
    InPlace id fun r ↦ r.setWaypoints id places := by
  intro r out h δ hδ
  obtain ⟨previous, rfl⟩ := replace_deltas h δ hδ
  exact ⟨rfl, trivial⟩

theorem credit_inPlace (id : CharacterId) (resource : Resource) (amount : UInt64) :
    InPlace id fun r ↦ r.credit id resource amount := by
  intro r out h δ hδ
  simp only [credit] at h
  split at h
  · cases h
    cases hδ
  · obtain ⟨c, -, h⟩ := bind_eq_ok_iff.1 h
    obtain ⟨inventory, -, h⟩ := bind_eq_ok_iff.1 h
    cases h
    rw [List.mem_singleton.1 hδ]
    exact ⟨rfl, trivial⟩

theorem debit_inPlace (id : CharacterId) (resource : Resource) (amount : UInt64) :
    InPlace id fun r ↦ r.debit id resource amount := by
  intro r out h δ hδ
  simp only [debit] at h
  split at h
  · cases h
    cases hδ
  · obtain ⟨c, -, h⟩ := bind_eq_ok_iff.1 h
    obtain ⟨inventory, -, h⟩ := bind_eq_ok_iff.1 h
    cases h
    rw [List.mem_singleton.1 hδ]
    exact ⟨rfl, trivial⟩

theorem startIfAllowed_inPlace (grid : Grid) (deposits : Deposits) (id : CharacterId)
    (region : RegionId) : InPlace id fun r ↦ r.startIfAllowed grid deposits id region := by
  intro r out h
  simp only [startIfAllowed] at h
  split at h
  · cases h
    exact List.forall_mem_nil _
  · obtain ⟨c, -, h⟩ := bind_eq_ok_iff.1 h
    split at h
    · cases h
    · exact setMining_inPlace id _ r out h

end Roster

namespace GroundLoot

variable {l : GroundLoot} {place : Coord} {resource : Resource} {amount : UInt64}

theorem pickUp_deltas : ∀ δ ∈ (l.pickUp place resource amount).deltas,
    δ.subject = .place place := by
  simp only [pickUp]
  split
  · exact List.forall_mem_nil _
  · split
    · exact List.forall_mem_nil _
    · intro δ hδ
      rw [List.mem_singleton.1 hδ]
      rfl

theorem dropAt_deltas {out : Recorded GroundLoot Unit}
    (h : l.dropAt place resource amount = .ok out) :
    ∀ δ ∈ out.deltas, δ.subject = .place place := by
  simp only [dropAt] at h
  split at h
  · cases h
    exact List.forall_mem_nil _
  · obtain ⟨l', -, h⟩ := bind_eq_ok_iff.1 h
    cases h
    intro δ hδ
    rw [List.mem_singleton.1 hδ]
    rfl

end GroundLoot

namespace Turn

variable {α β : Type} {K : UndoDelta → Prop} {o : Progress} {id : CharacterId}
  {region : RegionId} {prospector : Prospector}

/-- A turn that goes on from some progress records only deltas that pass a test. -/
abbrev Confines (K : UndoDelta → Prop) (o : Progress) (t : Turn α) : Prop := Keeps (Confined K o) t

/-- A turn that records all it does is confined to what it records. -/
theorem Logs.confines {t : Turn α} (hlogs : Logs t)
    (h : ∀ p, Confined K o p → ∃ δs, (ending (t p)).undo = p.undo.append δs ∧ ∀ δ ∈ δs, K δ) :
    Confines K o t := by
  intro p hp
  obtain ⟨δs, hundo, hδs⟩ := h p hp
  have hend : Logged p (ending (t p)) → Confined K o (ending (t p)) := by
    rintro ⟨δs', hundo', hhistory⟩
    have hsame : δs' = δs := List.append_cancel_left
      (congrArg BlockUndo.deltas (hundo'.symm.trans hundo))
    obtain ⟨before, hbefore, hundo₀, hhistory₀⟩ := hp
    refine ⟨before ++ δs, ?_, ?_, hhistory₀.append (hsame ▸ hhistory)⟩
    · exact fun δ hδ ↦ (List.mem_append.1 hδ).elim (hbefore δ) (hδs δ)
    · rw [hundo, hundo₀]
      simp [BlockUndo.append]
  have hlogged := hlogs p p (.refl p)
  cases hrun : t p with
  | ok a p' =>
    rw [hrun] at hlogged hend
    exact hend hlogged
  | error e p' =>
    rw [hrun] at hlogged hend
    exact hend hlogged.2

/-- A turn that records nothing is confined to anything. -/
theorem exists_append_nil (undo : BlockUndo) :
    ∃ δs, undo = undo.append δs ∧ ∀ δ ∈ δs, K δ :=
  ⟨[], by simp [BlockUndo.append], List.forall_mem_nil _⟩

theorem pure_confines (a : α) : Confines K o (pure a : Turn α) := Contract.pure fun _ hp ↦ hp

theorem state_confines : Confines K o state := fun _ hp ↦ hp

theorem height_confines : Confines K o height := fun _ hp ↦ hp

theorem inRoster_confines {e : Recording CharacterError Roster α}
    {f : Roster → Except CharacterError (Recorded Roster α)} (he : e = .ofAnswer f)
    (hlogs : Roster.Logs f) (h : ∀ p, Confined K o p → ∀ out, f p.state.roster = .ok out →
      ∀ δ ∈ out.deltas, K δ) : Confines K o (inRoster e) := by
  refine (inRoster_logs he hlogs).confines fun p hp ↦ ?_
  rw [inRoster_eq he, onRoster]
  cases hout : f p.state.roster with
  | error e => exact exists_append_nil p.undo
  | ok out => exact ⟨out.deltas, rfl, h p hp out hout⟩

theorem inLoot_confines {e : Recording WorldError GroundLoot α}
    {f : GroundLoot → Except WorldError (Recorded GroundLoot α)} (he : e = .ofAnswer f)
    (hlogs : GroundLoot.Logs f) (h : ∀ l out, f l = .ok out → ∀ δ ∈ out.deltas, K δ) :
    Confines K o (inLoot e) := by
  refine (inLoot_logs he hlogs).confines fun p _ ↦ ?_
  rw [inLoot_eq he, onLoot?]
  cases hout : f p.state.loot with
  | error e => exact exists_append_nil p.undo
  | ok out => exact ⟨out.deltas, rfl, h p.state.loot out hout⟩

theorem own_confines {e : Recording CharacterError Roster α}
    {f : Roster → Except CharacterError (Recorded Roster α)} (he : e = .ofAnswer f)
    (hlogs : Roster.Logs f) (hf : Roster.InPlace id f) (hK : ∀ δ, δ.InPlace id → K δ) :
    Confines K o (inRoster e) :=
  inRoster_confines he hlogs fun p _ out hout δ hδ ↦ hK δ (hf p.state.roster out hout δ hδ)

theorem character_confines (id : CharacterId) : Contract (Confined K o) (character id)
    (fun c p ↦ Confined K o p ∧ p.state.roster.get? id = some c) (fun _ ↦ Confined K o) := by
  intro p hp
  cases found : p.state.roster.get? id with
  | none =>
    rw [character_of_absent found]
    exact hp
  | some c =>
    rw [character_of_get? found]
    exact ⟨hp, found⟩

/-! ### Carrying out a move -/

/-- A test passes what a character may do in its turn: change where it stands, find a deposit and,
if it carries, change the pile under its feet. Nothing that passes takes anybody elsewhere. -/
structure Admits (K : UndoDelta → Prop) (o : Progress) (id : CharacterId) (carries : Prop) :
    Prop where
  still : ∀ δ, K δ → δ.Still
  own : ∀ δ, δ.InPlace id → K δ
  region : ∀ region δ, δ.subject = .region region → K δ
  place : carries → ∀ place, (o.state.roster.get? id).map Character.position = some place →
    ∀ δ, δ.subject = .place place → K δ

theorem Admits.mono {carries carries' : Prop} (h : Admits K o id carries)
    (himp : carries' → carries) : Admits K o id carries' :=
  ⟨h.still, h.own, h.region, fun hcarries ↦ h.place (himp hcarries)⟩

/-- What a character may do spares other characters, and places at which it carries nothing. -/
theorem admits_spares {x : Subject} {carries : Prop} (hregion : ∀ region, x ≠ .region region)
    (hown : x ≠ .character id) (hplace : carries → ∀ place,
      (o.state.roster.get? id).map Character.position = some place → x ≠ .place place) :
    Admits (UndoDelta.Spares x) o id carries where
  still := fun _ hδ ↦ hδ.2
  own := fun _ hδ ↦ ⟨fun heq ↦ hown (heq.symm.trans hδ.1), hδ.2⟩
  region := fun region _ hδ ↦
    ⟨fun heq ↦ hregion region (heq.symm.trans hδ), UndoDelta.still_of_region hδ⟩
  place := fun hcarries place hhere _ hδ ↦
    ⟨fun heq ↦ hplace hcarries place hhere (heq.symm.trans hδ), UndoDelta.still_of_place hδ⟩

theorem setWaypoints_confines (hK : ∀ δ, δ.InPlace id → K δ) (waypoints : List Coord) :
    Confines K o (inRoster (.setWaypoints id waypoints)) :=
  own_confines (Recording.setWaypoints_eq id waypoints) (Roster.setWaypoints_logs id waypoints)
    (Roster.setWaypoints_inPlace id waypoints) hK

theorem stopMining_confines (hK : ∀ δ, δ.InPlace id → K δ) :
    Confines K o (inRoster (.stopMining id)) :=
  own_confines (Recording.stopMining_eq id) (Roster.stopMining_logs id)
    (Roster.setMining_inPlace id .idle) hK

theorem travel_confines (hK : ∀ δ, δ.InPlace id → K δ) (places : List Coord) :
    Confines K o (travel id places) :=
  (setWaypoints_confines hK places).bind fun _ ↦ stopMining_confines hK

theorem mine_confines (hK : ∀ δ, δ.InPlace id → K δ) : Confines K o (mine id) := by
  refine state_confines.bind fun s ↦ (character_confines id).bind fun c ↦ ?_
  have hown : Confines K o (inRoster _) := own_confines
    (Recording.startIfAllowed_eq s.grid s.deposits id (s.grid.regionAt c.position))
    (Roster.startIfAllowed_logs s.grid s.deposits id _)
    (Roster.startIfAllowed_inPlace s.grid s.deposits id _) hK
  exact fun p hp ↦ hown p hp.1

theorem pickUp_confines (h : Admits K o id True) (resource : Resource) (requested : UInt64) :
    Confines K o (pickUp id resource requested) := by
  refine (character_confines id).bind fun c p hp ↦ ?_
  have hhere : (o.state.roster.get? id).map Character.position = some c.position := by
    rw [← hp.1.position h.still, hp.2]
    rfl
  have hloot : Confines K o (inLoot (.pickUp c.position resource requested)) := by
    apply inLoot_confines (Recording.pickUp_eq c.position resource requested)
      (GroundLoot.pickUp_logs c.position resource requested)
    intro l out hout δ hδ
    cases hout
    exact h.place trivial c.position hhere δ (GroundLoot.pickUp_deltas δ hδ)
  have hcredit : ∀ taken, Confines K o (inRoster (.credit id resource taken)) := fun taken ↦
    own_confines (Recording.credit_eq id resource taken) (Roster.credit_logs id resource taken)
      (Roster.credit_inPlace id resource taken) h.own
  exact (hloot.bind hcredit) p hp.1

theorem drop_confines (h : Admits K o id True) (resource : Resource) (requested : UInt64) :
    Confines K o (drop id resource requested) := by
  refine (character_confines id).bind fun c p hp ↦ ?_
  have hhere : (o.state.roster.get? id).map Character.position = some c.position := by
    rw [← hp.1.position h.still, hp.2]
    rfl
  have hdebit : ∀ given, Confines K o (inRoster (.debit id resource given)) := fun given ↦
    own_confines (Recording.debit_eq id resource given) (Roster.debit_logs id resource given)
      (Roster.debit_inPlace id resource given) h.own
  have hdrop : ∀ given, Confines K o (inLoot (.dropAt c.position resource given)) := by
    intro given
    apply inLoot_confines (Recording.dropAt_eq c.position resource given)
      (GroundLoot.dropAt_logs c.position resource given)
    exact fun l out hout δ hδ ↦
      h.place trivial c.position hhere δ (GroundLoot.dropAt_deltas hout δ hδ)
  exact ((hdebit _).bind fun _ ↦ hdrop _) p hp.1

theorem settle_confines (hK : ∀ region δ, δ.subject = .region region → K δ) (region : RegionId)
    (find : Find) (prospection : Prospection) :
    Confines K o (settle region find prospection) := by
  refine (settle_logs region find prospection).confines fun p _ ↦ ?_
  rw [settle, inDeposits_eq (Recording.assignIfVacant_eq region find prospection), onDeposits?,
    Deposits.assignIfVacant]
  cases hassign : p.state.deposits.assign region find.resource find.amount prospection with
  | ok out =>
    obtain ⟨-, -, -, hdeltas⟩ := Deposits.assign_ok hassign
    refine ⟨out.deltas, rfl, fun δ hδ ↦ hK region δ ?_⟩
    rw [hdeltas] at hδ
    rw [List.mem_singleton.1 hδ]
    rfl
  | error e =>
    cases e <;> first | exact exists_append_nil p.undo | exact ⟨[], rfl, List.forall_mem_nil _⟩

theorem prospect_confines (hK : ∀ region δ, δ.subject = .region region → K δ) (id : CharacterId) :
    Confines K o (prospect prospector id) := by
  refine state_confines.bind fun s ↦ ?_
  refine Contract.bind (character_confines id) fun c ↦ ?_
  refine Contract.mono (P := Confined K o) ?_ (fun _ hp ↦ hp.1) (fun _ _ hp ↦ hp) fun _ _ hp ↦ hp
  split
  · exact pure_confines _
  · simp only
    split
    · exact pure_confines _
    · refine height_confines.bind fun height ↦ ?_
      split
      · exact pure_confines _
      · exact height_confines.bind fun _ ↦ settle_confines hK _ _ _

theorem directive_confines {d : Directive} (h : Admits K o id d.Carries) :
    Confines K o (directive prospector id d) := by
  cases d with
  | waypoints places => exact travel_confines h.own places
  | mine => exact mine_confines h.own
  | pickup items =>
    have hcarries : Admits K o id True := h.mono fun _ ↦ ⟨items, .inl rfl⟩
    exact Contract.forM fun e _ ↦ pickUp_confines hcarries e.1 e.2
  | drop items =>
    have hcarries : Admits K o id True := h.mono fun _ ↦ ⟨items, .inr rfl⟩
    exact Contract.forM fun e _ ↦ drop_confines hcarries e.1 e.2
  | prospect => exact prospect_confines h.region id

theorem move_confines {m : CharacterMove} (h : Admits K o id (∃ d ∈ m.directives, d.Carries)) :
    Confines K o (move prospector id m) := by
  refine state_confines.bind fun s ↦ ?_
  split
  · refine Contract.forM fun d hd ↦ directive_confines (h.mono fun hcarries ↦ ?_)
    exact ⟨d, (CharacterMove.mem_resolve.1 hd).1, hcarries⟩
  · exact pure_confines _

/-- Moves without directives need not be admitted. -/
theorem moves_confines {all : List (CharacterId × CharacterMove)}
    (h : ∀ e ∈ (CharacterMove.merge all).entries, e.2.isEmpty = false →
      Admits K o e.1 (∃ d ∈ e.2.directives, d.Carries)) :
    Confines K o (moves prospector all) := by
  refine Contract.forM fun e he ↦ ?_
  cases hempty : e.2.isEmpty with
  | false => exact move_confines (h e he hempty)
  | true =>
    have hidle : Confines K o (move prospector e.1 e.2) := by
      intro p hp
      rw [move_of_isEmpty hempty]
      exact hp
    exact hidle

/-! ### Walking -/

theorem step_confines (hK : ∀ δ, δ.subject = .character id → K δ) (s : Step) :
    Confines K o (step id s) := by
  have hown : ∀ δ : UndoDelta, δ.InPlace id → K δ := fun δ hδ ↦ hK δ hδ.1
  have hplace : Confines K o (inRoster (.setPosition id s.position)) := by
    refine inRoster_confines (Recording.setPosition_eq id s.position)
      (Roster.setPosition_logs id s.position) fun p _ out hout δ hδ ↦ ?_
    obtain ⟨previous, rfl⟩ := Roster.replace_deltas hout δ hδ
    exact hK _ rfl
  refine (setWaypoints_confines hown s.waypoints).bind fun _ ↦ ?_
  refine Contract.bind (character_confines id) fun c ↦ ?_
  refine Contract.mono (P := Confined K o) ?_ (fun _ hp ↦ hp.1) (fun _ _ hp ↦ hp) fun _ _ hp ↦ hp
  split
  · exact (stopMining_confines hown).bind fun _ ↦ hplace
  · exact pure_confines _

theorem walk_confines (hK : ∀ δ, δ.subject = .character id → K δ) (policy : Movement) :
    Confines K o (walk policy id) := by
  refine state_confines.bind fun s ↦ ?_
  split
  · exact pure_confines _
  · exact step_confines hK _

/-- Walking leaves alone what is not a character on its way. -/
theorem movement_confines {x : Subject} (hx : ∀ id c, x = .character id →
    o.state.roster.get? id = some c → c.waypoints = []) :
    Confines (fun δ ↦ δ.subject ≠ x) o (movement .walk) := by
  refine state_confines.bind fun s ↦ Contract.forM fun id _ ↦ ?_
  by_cases hid : x = .character id
  · subst hid
    intro p hp
    have hsame : p.state.roster.get? id = o.state.roster.get? id := hp.get? fun _ hδ ↦ hδ
    have hstays : (p.state.roster.get? id).bind Movement.walk = none := by
      rw [hsame, Option.bind_eq_none_iff]
      exact fun c found ↦ Movement.walk_eq_none_iff.2 (hx id c rfl found)
    have hrun : walk .walk id p = .ok () p := by
      rw [walk, bind_of_ok (t := state) rfl, hstays]
      rfl
    rw [hrun]
    exact hp
  · refine walk_confines (fun δ hδ heq ↦ ?_) .walk
    exact hid (heq.symm.trans hδ)

end Turn

end MiningGame
