import MiningGame.Proofs.Enrolment
import MiningGame.Proofs.Footprints
import MiningGame.Proofs.Lifecycle
import MiningGame.Proofs.Sharing

/-!
# What a block leaves alone

When characters follow their waypoints, a block changes only what somebody has to do with. A
character that is told nothing, goes nowhere and mines nothing comes out of it as it was, nobody
loses its name, a pile changes only under the feet of somebody who carries, and the record of a
region only where somebody finds a deposit or mines (`BlockInput.Frames`).
-/

namespace MiningGame

/-- What a block does before its miners extract. -/
def Turn.beforeExtraction (rules : BlockRules) (b : BlockInput) : Turn Unit := do
  b.creates.forM create
  moves rules.prospector b.moves
  movement rules.movement

/-- What a block leaves of a state, told by what must be the case where it does not. -/
structure BlockInput.Frames (b : BlockInput) (rules : BlockRules) (s s' : GameState) : Prop where
  /-- A character that is told nothing, goes nowhere and mines nothing is as it was. -/
  bystander : ∀ id c, s.roster.get? id = some c → (∀ m, (id, m) ∈ b.moves → m.directives = []) →
    c.waypoints = [] → c.mining = .idle → s'.roster.get? id = some c
  /-- Nobody disappears or becomes somebody else. -/
  identity : ∀ id c, s.roster.get? id = some c →
    ∃ c', s'.roster.get? id = some c' ∧ c'.identity = c.identity
  /-- Somebody who carries stands at each pile that changes when the moves begin. -/
  pile : ∀ place, s'.loot.piles.get? place ≠ s.loot.piles.get? place →
    ∃ id c, (s.opened b).roster.get? id = some c ∧ c.position = place ∧
      ∃ d ∈ (b.moveOf id).directives, d.Carries
  /-- In each region whose record changes somebody extracts, or a deposit is found. -/
  record : ∀ region, s'.deposits.record? region ≠ s.deposits.record? region →
    (∃ p id c, Turn.beforeExtraction rules b ⟨s, .new b.height⟩ = .ok () p ∧
      p.state.roster.get? id = some c ∧ c.mining = .mining region) ∨
    ∃ id find, b.Finds rules.prospector s region id find

/-! ## What a single change leaves -/

theorem Roster.Change.identity {r r' : Roster} {δ : UndoDelta} {id : CharacterId} {c : Character}
    (h : Change r δ r') (hr : r.WellFormed) (found : r.get? id = some c) :
    ∃ c', r'.get? id = some c' ∧ c'.identity = c.identity := by
  have hstore : ∀ {k x x'}, r.get? k = some x → x'.identity = x.identity →
      ∃ c', (r.store k x').get? id = some c' ∧ c'.identity = c.identity := by
    intro k x x' hx hsame
    rw [get?_store]
    split
    · next heq =>
      subst heq
      cases found.symm.trans hx
      exact ⟨x', rfl, hsame⟩
    · exact ⟨c, found, rfl⟩
  cases h with
  | create =>
    have hne : id ≠ r.nextId := by
      rintro rfl
      cases found.symm.trans hr.get?_nextId
    exact ⟨c, (Table.get?_insert_of_ne _ _ hne).trans found, rfl⟩
  | mining hx => exact hstore hx rfl
  | waypoints hx => exact hstore hx rfl
  | position hx => exact hstore hx rfl
  | credit hx => exact hstore hx rfl
  | debit hx => exact hstore hx rfl

theorem GameState.Change.identity {s s' : GameState} {δ : UndoDelta} {id : CharacterId}
    {c : Character} (h : Change s δ s') (hs : s.WellFormed) (found : s.roster.get? id = some c) :
    ∃ c', s'.roster.get? id = some c' ∧ c'.identity = c.identity := by
  cases h with
  | roster change => exact change.identity hs.roster found
  | deposits => exact ⟨c, found, rfl⟩
  | loot => exact ⟨c, found, rfl⟩

theorem processBlock_identity {rules : BlockRules} {b : BlockInput} {s s' : GameState}
    {undo : BlockUndo} {id : CharacterId} {c : Character}
    (h : processBlock rules b s = .ok undo s') (hs : s.WellFormed)
    (found : s.roster.get? id = some c) :
    ∃ c', s'.roster.get? id = some c' ∧ c'.identity = c.identity := by
  obtain ⟨δs, -, hhistory⟩ := processBlock_logged h hs
  refine (hhistory.keeps (I := fun x ↦ x.WellFormed ∧
    ∃ c', x.roster.get? id = some c' ∧ c'.identity = c.identity) ?_ ⟨hs, c, found, rfl⟩).2
  rintro x δ y hchange ⟨hx, c', found', hsame⟩
  obtain ⟨c'', found'', hsame'⟩ := hchange.identity hx found'
  exact ⟨hchange.wellFormed hx, c'', found'', hsame'.trans hsame⟩

theorem CharacterMove.isEmpty_of_get?_merge {moves : List (CharacterId × CharacterMove)}
    {id : CharacterId} {m : CharacterMove} (h : (merge moves).get? id = some m)
    (hnone : ∀ m, (id, m) ∈ moves → m.directives = []) : m.isEmpty = true := by
  have hnil : directivesOf moves id = [] := by
    refine List.flatMap_eq_nil_iff.2 fun e he ↦ ?_
    obtain ⟨hmem, hid⟩ := List.mem_filter.1 he
    obtain rfl := of_decide_eq_true hid
    exact hnone e.2 hmem
  refine List.isEmpty_iff.2 (List.eq_nil_iff_forall_not_mem.2 fun d hd ↦ ?_)
  rw [(of_get?_merge h).2, hnil] at hd
  exact not_lastOfKind_nil hd

/-! ## One phase after the other -/

/-- How far a block has got after its first phases, if it succeeds. -/
structure Turn.Course (rules : BlockRules) (b : BlockInput) (s s' : GameState)
    (opened moved walked : Progress) : Prop where
  creates : b.creates.forM create ⟨s, .new b.height⟩ = .ok () opened
  moves : Turn.moves rules.prospector b.moves opened = .ok () moved
  movement : Turn.movement rules.movement moved = .ok () walked
  extraction : ∃ shares p, Turn.extraction rules.rate walked = .ok shares p ∧ p.state = s'

namespace Turn

theorem audit_ok {p p' : Progress} (h : audit p = .ok () p') : p' = p := by
  rw [audit, bind_of_ok (t := height) rfl, bind_of_ok (t := state) rfl] at h
  cases htotals : p.state.totals? with
  | none =>
    rw [htotals] at h
    cases h
  | some totals =>
    rw [htotals] at h
    dsimp only at h
    cases hfault : totals.audit p.undo.height with
    | none =>
      rw [hfault] at h
      cases h
      rfl
    | some anomaly =>
      rw [hfault] at h
      cases h

variable {rules : BlockRules} {b : BlockInput} {s s' : GameState} {undo : BlockUndo}
  {opened moved walked : Progress}

theorem exists_course (h : processBlock rules b s = .ok undo s') (hs : s.WellFormed) :
    ∃ opened moved walked, Course rules b s s' opened moved walked := by
  obtain ⟨hrun, -⟩ := processBlock_ok h hs
  obtain ⟨_, opened, hcreates, hrun⟩ := exists_of_bind_ok hrun
  obtain ⟨_, moved, hmoves, hrun⟩ := exists_of_bind_ok hrun
  obtain ⟨_, walked, hmovement, hrun⟩ := exists_of_bind_ok hrun
  obtain ⟨shares, p, hextraction, haudit⟩ := exists_of_bind_ok hrun
  cases audit_ok haudit
  exact ⟨opened, moved, walked, hcreates, hmoves, hmovement, shares, _, hextraction, rfl⟩

namespace Course

theorem opened_state (h : Course rules b s s' opened moved walked) : opened.state = s.opened b :=
  (creates_ok h.creates).1

theorem beforeExtraction_eq (h : Course rules b s s' opened moved walked) :
    beforeExtraction rules b ⟨s, .new b.height⟩ = .ok () walked := by
  rw [Turn.beforeExtraction, bind_of_ok h.creates, bind_of_ok h.moves]
  exact h.movement

theorem tidy_walked (h : Course rules b s s' opened moved walked) (hs : s.Tidy) :
    walked.state.Tidy := by
  have hopened := (creates_begun hs h.creates).1
  have hmoved := ((moves_logs _ _ opened).of_ok (.refl opened) h.moves).tidy hopened
  exact ((movement_logs _ moved).of_ok (.refl moved) h.movement).tidy hmoved

theorem moved_confined {x : Subject} (h : Course rules b s s' opened moved walked)
    (hx : ∀ e ∈ b.orders, e.2.isEmpty = false →
      Admits (UndoDelta.Spares x) opened e.1 (∃ d ∈ e.2.directives, d.Carries)) :
    Confined (UndoDelta.Spares x) opened moved :=
  (moves_confines hx).of_ok (.refl _ opened) h.moves

variable {rate : UInt64} {prospector : Prospector} {id : CharacterId} {c : Character}
  {place : Coord} {region : RegionId}

theorem walked_confined {x : Subject}
    (h : Course ⟨rate, prospector, .walk⟩ b s s' opened moved walked)
    (hx : ∀ id c, x = .character id → moved.state.roster.get? id = some c → c.waypoints = []) :
    Confined (fun δ ↦ δ.subject ≠ x) moved walked :=
  (movement_confines hx).of_ok (.refl _ moved) h.movement

theorem get?_of_bystander (h : Course ⟨rate, prospector, .walk⟩ b s s' opened moved walked)
    (hs : s.Tidy) (found : s.roster.get? id = some c)
    (hnone : ∀ m, (id, m) ∈ b.moves → m.directives = []) (hway : c.waypoints = [])
    (hidle : c.mining = .idle) : s'.roster.get? id = some c := by
  have hopened : opened.state.roster.get? id = some c := by
    rw [h.opened_state]
    exact GameState.get?_opened_of_get? hs.wellFormed found
  have hmoves : Confined (UndoDelta.Spares (.character id)) opened moved := by
    refine h.moved_confined fun e he hempty ↦ admits_spares nofun ?_ nofun
    intro heq
    cases heq
    rw [CharacterMove.isEmpty_of_get?_merge (Table.get?_eq_some_iff.2 he) hnone] at hempty
    cases hempty
  have hmoved := (hmoves.get? fun _ hδ ↦ hδ.1).trans hopened
  have hwalks : Confined (fun δ ↦ δ.subject ≠ .character id) moved walked := by
    refine h.walked_confined fun k c' heq found' ↦ ?_
    cases heq
    cases hmoved.symm.trans found'
    exact hway
  have hwalked := (hwalks.get? fun _ hδ ↦ hδ).trans hmoved
  obtain ⟨shares, p, hextraction, rfl⟩ := h.extraction
  refine ((sharedOut_of_ok hextraction (h.tidy_walked hs)).others id ?_).trans hwalked
  intro c' region found' hmining
  cases hwalked.symm.trans found'
  cases hidle.symm.trans hmining

theorem pile_of_nobody (h : Course ⟨rate, prospector, .walk⟩ b s s' opened moved walked)
    (hs : s.Tidy) (hnone : ∀ id c, (s.opened b).roster.get? id = some c → c.position = place →
      ∀ d ∈ (b.moveOf id).directives, ¬ d.Carries) :
    s'.loot.piles.get? place = s.loot.piles.get? place := by
  have hmoves : Confined (UndoDelta.Spares (.place place)) opened moved := by
    refine h.moved_confined fun e he _ ↦ admits_spares nofun nofun ?_
    rintro ⟨d, hd, hcarries⟩ place' hplace heq
    cases heq
    rw [h.opened_state] at hplace
    obtain ⟨c, found, hposition⟩ := Option.map_eq_some_iff.1 hplace
    rw [← b.moveOf_of_mem he] at hd
    exact hnone e.1 c found hposition d hd hcarries
  have hwalks : Confined (fun δ ↦ δ.subject ≠ .place place) moved walked :=
    h.walked_confined fun _ _ heq ↦ nomatch heq
  have hopened : opened.state.loot = s.loot := by
    rw [h.opened_state]
    rfl
  obtain ⟨shares, p, hextraction, rfl⟩ := h.extraction
  have hextracted : p.state.loot = walked.state.loot := by
    rw [(sharedOut_of_ok hextraction (h.tidy_walked hs)).same]
  rw [hextracted, hwalks.pile fun _ hδ ↦ hδ, hmoves.pile fun _ hδ ↦ hδ.1, hopened]

theorem record?_of_nobody (h : Course ⟨rate, prospector, .walk⟩ b s s' opened moved walked)
    (hs : s.Tidy)
    (hminers : ∀ id c, walked.state.roster.get? id = some c → c.mining ≠ .mining region)
    (hfinds : ∀ id find, ¬ b.Finds prospector s region id find) :
    s'.deposits.record? region = s.deposits.record? region := by
  have hmoved : moved.state.deposits.record? region = s.deposits.record? region := by
    obtain ⟨htidy, hopened⟩ := creates_begun hs h.creates
    obtain ⟨-, houtline⟩ := (moves_draws b.moves).of_ok htidy h.moves
    rw [hopened] at houtline
    exact (congrFun (congrArg Outline.record? houtline) region).trans
      (record?_movedAll_of_not hfinds)
  have hwalks : Confined (fun δ ↦ δ.subject ≠ .region region) moved walked :=
    h.walked_confined fun _ _ heq ↦ nomatch heq
  obtain ⟨shares, p, hextraction, rfl⟩ := h.extraction
  have hshared := sharedOut_of_ok hextraction (h.tidy_walked hs)
  have hunmined : walked.state.roster.minersOf region = [] := by
    refine List.eq_nil_iff_forall_not_mem.2 fun id hid ↦ ?_
    obtain ⟨c, found, hmining⟩ := ((hshared.turns region).2 id).1 hid
    exact hminers id c found hmining
  rw [hshared.unmined region hunmined, hwalks.record? fun _ hδ ↦ hδ, hmoved]

end Course

end Turn

theorem processBlock_frames {rate : UInt64} {prospector : Prospector} {b : BlockInput}
    {s s' : GameState} {undo : BlockUndo}
    (h : processBlock ⟨rate, prospector, .walk⟩ b s = .ok undo s') (hs : s.Tidy) :
    b.Frames ⟨rate, prospector, .walk⟩ s s' := by
  obtain ⟨opened, moved, walked, hcourse⟩ := Turn.exists_course h hs.wellFormed
  constructor
  · exact fun id c found hnone hway hidle ↦ hcourse.get?_of_bystander hs found hnone hway hidle
  · exact fun id c found ↦ processBlock_identity h hs.wellFormed found
  · intro place hdiffers
    by_contra hnobody
    refine hdiffers (hcourse.pile_of_nobody hs fun id c found hposition d hd hcarries ↦ ?_)
    exact hnobody ⟨id, c, found, hposition, d, hd, hcarries⟩
  · intro region hdiffers
    by_contra hnobody
    obtain ⟨hminers, hfinds⟩ := not_or.1 hnobody
    have hidle : ∀ id c, walked.state.roster.get? id = some c → c.mining ≠ .mining region :=
      fun id c found hmining ↦
        hminers ⟨walked, id, c, hcourse.beforeExtraction_eq, found, hmining⟩
    exact hdiffers (hcourse.record?_of_nobody hs hidle fun id find hfind ↦
      hfinds ⟨id, find, hfind⟩)

namespace Trail

/-- After any run, a block whose characters follow their waypoints changes nothing but what somebody
has to do with. -/
theorem run_frames {rules : BlockRules} {rate : UInt64} {prospector : Prospector} {o : Origin}
    {calls : List Call} {b : BlockInput} {s' : GameState} {undo : BlockUndo}
    (h : processBlock ⟨rate, prospector, .walk⟩ b (run rules o calls).node.state = .ok undo s') :
    b.Frames ⟨rate, prospector, .walk⟩ (run rules o calls).node.state s' :=
  processBlock_frames h (sound_run rules o calls).tidy

namespace Sample

/-- Where the first character stands, a second one prospects and a third one mines what it finds and
picks up what lies there. The first one has a move that tells it nothing. -/
def bustle : BlockInput :=
  ⟨4, ⟨"d"⟩, ⟨"c"⟩, [⟨"owner", "second", ⟨3, 4⟩⟩, ⟨"owner", "third", ⟨3, 4⟩⟩],
    [(⟨2⟩, ⟨[.prospect]⟩), (.first, ⟨[]⟩),
      (⟨3⟩, ⟨[.mine, .pickup (Table.empty.insert .rawB 2)]⟩)]⟩

end Sample

/-- The first character comes out of the block as it was. -/
theorem run_frames_sample :
    let s := (run (Sample.seven 10) Sample.origin Sample.direct).node.state
    ∃ undo s' c, processBlock (Sample.seven 3) Sample.bustle s = .ok undo s' ∧
      s.roster.get? .first = some c ∧ s'.roster.get? .first = some c ∧
      s'.loot.piles.get? ⟨3, 4⟩ ≠ s.loot.piles.get? ⟨3, 4⟩ := by
  intro s
  have hruns : ((outcome? (processBlock (Sample.seven 3) Sample.bustle s)).map fun x ↦
      decide (x.2.loot.piles.get? ⟨3, 4⟩ ≠ s.loot.piles.get? ⟨3, 4⟩)) = some true := by
    decide +kernel
  have hfirst : ((s.roster.get? .first).map fun c ↦ (c.waypoints, c.mining)) =
      some ([], .idle) := by decide +kernel
  obtain ⟨⟨undo, s'⟩, hrun, hpile⟩ := Option.map_eq_some_iff.1 hruns
  obtain ⟨c, found, hc⟩ := Option.map_eq_some_iff.1 hfirst
  rw [outcome?_eq_some_iff] at hrun
  have hnone : ∀ e ∈ Sample.bustle.moves, e.1 = .first → e.2.directives = [] := by decide
  exact ⟨undo, s', c, hrun, found, (run_frames hrun).bystander .first c found
    (fun m hm ↦ hnone (.first, m) hm rfl) (congrArg Prod.fst hc) (congrArg Prod.snd hc),
    of_decide_eq_true hpile⟩

end Trail

end MiningGame
