import MiningGame.Proofs.AllOrNothing
import MiningGame.Proofs.Balance

/-!
# Operations in any order

Blocks call the operations of the tables in certain orders only, but what these record takes
changes back in any order of calls. Here the operations and the phases of a block are called one
after the other with arbitrary arguments, in place and on one record, and whatever fails on the way
is passed over with all it has changed and pushed. A single operation that fails turns out to leave
no trace (`Operation.perform_atomic`), and at any point the record leads back to the state before
the first call (`Activity.performAll_takes_back`).
-/

namespace MiningGame

/-- A call of an operation that records its changes. -/
inductive Operation where
  | create (owner name : String) (position : Coord)
  | setWaypoints (id : CharacterId) (places : List Coord)
  | setPosition (id : CharacterId) (place : Coord)
  | credit (id : CharacterId) (resource : Resource) (amount : UInt64)
  | debit (id : CharacterId) (resource : Resource) (amount : UInt64)
  /-- Mining may be started against the deposits of any other game. -/
  | startMining (grid : Grid) (deposits : Deposits) (id : CharacterId) (region : RegionId)
  | stopMining (id : CharacterId)
  | stopRegion (region : RegionId)
  | assign (region : RegionId) (resource : Resource) (amount : UInt64) (prospection : Prospection)
  | extract (region : RegionId) (amount : UInt64)
  | dropAt (position : Coord) (resource : Resource) (amount : UInt64)
  | pickUp (position : Coord) (resource : Resource) (requested : UInt64)

/-- A call of a single operation, or of a phase of a block. -/
inductive Activity where
  | operation (op : Operation)
  | moves (prospector : Prospector) (all : List (CharacterId × CharacterMove))
  | movement (policy : Movement)
  | extraction (rate : UInt64)

/-- The call of an operation in place, without its answer. -/
def Operation.perform : Operation → Turn Unit
  | create owner name position => do
    let _ ← Turn.inRoster (.create owner name position)
  | setWaypoints id places => Turn.inRoster (.setWaypoints id places)
  | setPosition id place => Turn.inRoster (.setPosition id place)
  | credit id resource amount => Turn.inRoster (.credit id resource amount)
  | debit id resource amount => Turn.inRoster (.debit id resource amount)
  | startMining grid deposits id region =>
    Turn.inRoster (.startMining grid deposits id region)
  | stopMining id => Turn.inRoster (.stopMining id)
  | stopRegion region => do
    let _ ← Turn.inRoster (.stopRegion region)
  | assign region resource amount prospection =>
    Turn.inDeposits (.assign region resource amount prospection)
  | extract region amount => do
    let _ ← Turn.inDeposits (.extract region amount)
  | dropAt position resource amount => Turn.inLoot (.dropAt position resource amount)
  | pickUp position resource requested => do
    let _ ← Turn.inLoot (.pickUp position resource requested)

namespace Activity

def perform : Activity → Turn Unit
  | operation op => op.perform
  | moves prospector all => Turn.moves prospector all
  | movement policy => Turn.movement policy
  | extraction rate => do
    let _ ← Turn.extraction rate

/-- What calls lead to one after the other, failed ones included. -/
def performAll (calls : List Activity) (p : Progress) : Progress :=
  calls.foldl (fun p a ↦ ending (a.perform p)) p

end Activity

/-! ## A single operation fails without a trace -/

/-- If the turn fails, nothing was changed and nothing recorded. -/
def Turn.Atomic {α : Type} (t : Turn α) : Prop := ∀ p e p', t p = .error e p' → p' = p

namespace Turn

variable {α : Type}

theorem inTable_atomic {ε τ : Type} {get : GameState → τ} {set : GameState → τ → GameState}
    {cause : ε → BlockError} {e : Recording ε τ α} {f : τ → Except ε (Recorded τ α)}
    (hset : ∀ s, set s (get s) = s) (he : e = .ofAnswer f) : Atomic (inTable get set cause e) := by
  intro p x p' h
  rw [he, inTable_ofAnswer hset] at h
  split at h <;> cases h
  rfl

theorem inRoster_atomic {e : Recording CharacterError Roster α}
    {f : Roster → Except CharacterError (Recorded Roster α)} (he : e = .ofAnswer f) :
    Atomic (inRoster e) :=
  inTable_atomic (fun _ ↦ rfl) he

theorem inDeposits_atomic {e : Recording WorldError Deposits α}
    {f : Deposits → Except WorldError (Recorded Deposits α)} (he : e = .ofAnswer f) :
    Atomic (inDeposits e) :=
  inTable_atomic (fun _ ↦ rfl) he

theorem inLoot_atomic {e : Recording WorldError GroundLoot α}
    {f : GroundLoot → Except WorldError (Recorded GroundLoot α)} (he : e = .ofAnswer f) :
    Atomic (inLoot e) :=
  inTable_atomic (fun _ ↦ rfl) he

theorem Atomic.discard {t : Turn α} (h : Atomic t) : Atomic (do let _ ← t) := by
  intro p e p' hrun
  cases ht : t p with
  | ok a q =>
    rw [bind_of_ok ht] at hrun
    cases hrun
  | error e q =>
    rw [bind_of_error ht] at hrun
    cases hrun
    exact h p e _ ht

theorem Logs.discard {t : Turn α} (h : Logs t) : Logs (do let _ ← t) :=
  h.bind fun _ ↦ pure_logs _

end Turn

namespace Operation

theorem perform_stopRegion {p : Progress} (hp : p.state.WellFormed) (region : RegionId) :
    ∃ p', (stopRegion region).perform p = .ok () p' := by
  obtain ⟨out, -, -, hrun⟩ := Turn.stopRegion_run hp.roster region
  exact ⟨_, bind_of_ok hrun⟩

/-- An operation that fails leaves no trace, also one that makes an entry before its sum is checked:
a sum that starts from nothing is never too large. -/
theorem perform_atomic {p p' : Progress} {e : BlockError} (op : Operation)
    (hp : p.state.WellFormed) (hrun : op.perform p = .error e p') : p' = p := by
  cases op with
  | create owner name position =>
    exact (Turn.inRoster_atomic (Recording.create_eq owner name position)).discard p e p' hrun
  | setWaypoints id places =>
    exact Turn.inRoster_atomic (Recording.setWaypoints_eq id places) p e p' hrun
  | setPosition id place =>
    exact Turn.inRoster_atomic (Recording.setPosition_eq id place) p e p' hrun
  | credit id resource amount =>
    exact Turn.inRoster_atomic (Recording.credit_eq id resource amount) p e p' hrun
  | debit id resource amount =>
    exact Turn.inRoster_atomic (Recording.debit_eq id resource amount) p e p' hrun
  | startMining grid deposits id region =>
    exact Turn.inRoster_atomic (Recording.startMining_eq grid deposits id region) p e p' hrun
  | stopMining id => exact Turn.inRoster_atomic (Recording.stopMining_eq id) p e p' hrun
  | stopRegion region =>
    obtain ⟨q, hok⟩ := perform_stopRegion hp region
    cases hok.symm.trans hrun
  | assign region resource amount prospection =>
    exact Turn.inDeposits_atomic (Recording.assign_eq region resource amount prospection) p e p'
      hrun
  | extract region amount =>
    exact (Turn.inDeposits_atomic (Recording.extract_eq region amount)).discard p e p' hrun
  | dropAt position resource amount =>
    exact Turn.inLoot_atomic (Recording.dropAt_eq position resource amount) p e p' hrun
  | pickUp position resource requested =>
    exact (Turn.inLoot_atomic (Recording.pickUp_eq position resource requested)).discard p e p'
      hrun

theorem perform_logs (op : Operation) : op.perform.Logs := by
  cases op with
  | create owner name position =>
    exact (Turn.inRoster_logs (Recording.create_eq owner name position)
      (Roster.create_logs owner name position)).discard
  | setWaypoints id places =>
    exact Turn.inRoster_logs (Recording.setWaypoints_eq id places)
      (Roster.setWaypoints_logs id places)
  | setPosition id place =>
    exact Turn.inRoster_logs (Recording.setPosition_eq id place) (Roster.setPosition_logs id place)
  | credit id resource amount =>
    exact Turn.inRoster_logs (Recording.credit_eq id resource amount)
      (Roster.credit_logs id resource amount)
  | debit id resource amount =>
    exact Turn.inRoster_logs (Recording.debit_eq id resource amount)
      (Roster.debit_logs id resource amount)
  | startMining grid deposits id region =>
    exact Turn.inRoster_logs (Recording.startMining_eq grid deposits id region)
      (Roster.startMining_logs grid deposits id region)
  | stopMining id => exact Turn.stopMining_logs id
  | stopRegion region => exact (Turn.stopRegion_logs region).discard
  | assign region resource amount prospection =>
    exact Turn.inDeposits_logs (Recording.assign_eq region resource amount prospection)
      (Deposits.assign_logs region resource amount prospection)
  | extract region amount =>
    exact (Turn.inDeposits_logs (Recording.extract_eq region amount)
      (Deposits.extract_logs region amount)).discard
  | dropAt position resource amount =>
    exact Turn.inLoot_logs (Recording.dropAt_eq position resource amount)
      (GroundLoot.dropAt_logs position resource amount)
  | pickUp position resource requested =>
    exact (Turn.inLoot_logs (Recording.pickUp_eq position resource requested)
      (GroundLoot.pickUp_logs position resource requested)).discard

end Operation

namespace Activity

variable {s : GameState}

theorem perform_logs (a : Activity) : a.perform.Logs := by
  cases a with
  | operation op => exact op.perform_logs
  | moves prospector all => exact Turn.moves_logs prospector all
  | movement policy => exact Turn.movement_logs policy
  | extraction rate => exact (Turn.extraction_logs rate).discard

/-! ## The record of all calls -/

/-- Whether it succeeds or breaks off, a call adds to the history of the calls before it. -/
theorem logged_ending {o p : Progress} (h : Logged o p) (a : Activity) :
    Logged o (ending (a.perform p)) := by
  cases hrun : a.perform p with
  | ok _ p' => exact (a.perform_logs o).of_ok h hrun
  | error e p' => exact ((a.perform_logs o).of_error h hrun).2

theorem logged_performAll {o p : Progress} (h : Logged o p) (calls : List Activity) :
    Logged o (performAll calls p) := by
  induction calls generalizing p with
  | nil => exact h
  | cons a rest ih => exact ih (logged_ending h a)

/-- After any calls, failed ones included, what was recorded leads back to the state before the
first of them. There, a single operation that fails has changed and recorded nothing, and stopping
the miners of a region, which goes through many characters, does not fail. -/
theorem performAll_takes_back (s : GameState) (hs : s.WellFormed) (height : UInt64)
    (calls : List Activity) :
    let p := performAll calls ⟨s, .new height⟩
    p.undo.height = height ∧ p.state.WellFormed ∧
      p.undo.revertOn GameState.revert p.state = .ok () s ∧
      (∀ (op : Operation) (e : BlockError) (p' : Progress), op.perform p = .error e p' → p' = p) ∧
      ∀ region, ∃ p', (Operation.stopRegion region).perform p = .ok () p' := by
  intro p
  have hlogged : Logged ⟨s, .new height⟩ p := logged_performAll (Logged.refl _) calls
  have hwell : p.state.WellFormed := hlogged.wellFormed hs
  refine ⟨hlogged.height_eq, hwell, hlogged.revertOn hs, ?_, ?_⟩
  · intro op e p' hrun
    exact op.perform_atomic hwell hrun
  · exact Operation.perform_stopRegion hwell

end Activity

namespace Sample

/-- A deposit is mined until it is used up, found again and emptied, a character comes and moves
off, and in the end the moves break off at a find that is too large to be counted. -/
def calls : List Activity :=
  let region := state.grid.regionAt ⟨3, 4⟩
  [.operation (.assign region .rawB 4 ⟨.first, 1⟩),
    .operation (.startMining state.grid ⟨Table.empty.insert region ⟨some .rawB, 1, ⟨.first, 1⟩⟩, ∅⟩
      .first region),
    .operation (.credit ⟨7⟩ .rawA 1),
    .extraction 10,
    .operation (.assign region .rawC Word.largest ⟨.first, 1⟩),
    .operation (.extract region Word.largest),
    .operation (.create "owner" "second" ⟨0, 0⟩),
    .operation (.setPosition ⟨2⟩ ⟨50, 60⟩),
    .operation (.debit .first .rawA 9),
    .moves (fun _ _ ↦ some ⟨.rawC, 1⟩)
      [(.first, ⟨[.drop (Table.empty.insert .rawA 3), .prospect]⟩)]]

end Sample

/-- The last call breaks off half-way, two of the others fail, and all is taken back. -/
theorem Activity.performAll_takes_back_sample :
    Sample.state.WellFormed ∧
      (∃ p, (Activity.moves (fun _ _ ↦ some ⟨.rawC, 1⟩)
          [(.first, ⟨[.drop (Table.empty.insert .rawA 3), .prospect]⟩)]).perform
        (performAll (Sample.calls.take 9) ⟨Sample.state, .new 1⟩) =
          .error (.world .arithmeticOverflow) p) ∧
      (performAll Sample.calls ⟨Sample.state, .new 1⟩).undo.deltas.length = 11 ∧
      (performAll Sample.calls ⟨Sample.state, .new 1⟩).undo.revertOn GameState.revert
        (performAll Sample.calls ⟨Sample.state, .new 1⟩).state = .ok () Sample.state := by
  have hwell : Sample.state.WellFormed := by decide
  have hback := performAll_takes_back Sample.state hwell 1 Sample.calls
  exact ⟨hwell, ⟨_, rfl⟩, by decide, hback.2.2.1⟩

end MiningGame
