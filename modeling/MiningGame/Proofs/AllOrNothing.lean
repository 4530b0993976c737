import MiningGame.Proofs.Undoing

/-!
# All or nothing

A block that fails leaves a well-formed state exactly as it was, and one that succeeds answers a
record that leads exactly back. Both come from the history that the block recorded: it starts in
the state before the block and, reverted newest first, ends there again, at whatever point the
block broke off.
-/

namespace MiningGame

variable {s : GameState} {height : UInt64} {p : Progress}

theorem Logged.revertOn (h : Logged ⟨s, .new height⟩ p) (hs : s.WellFormed) :
    p.undo.revertOn GameState.revert p.state = .ok () s := by
  obtain ⟨δs, hundo, hhistory⟩ := h
  have hback := GameState.revertOn_history hhistory hs height
  rw [hundo]
  exact hback

theorem Logged.wellFormed (h : Logged ⟨s, .new height⟩ p) (hs : s.WellFormed) :
    p.state.WellFormed := by
  obtain ⟨δs, -, hhistory⟩ := h
  exact GameState.wellFormed_of_history hhistory hs

/-! ### An example -/

namespace Sample

/-- A character carries five units of one resource. -/
def state : GameState where
  grid := ⟨10, by decide, by decide⟩
  deposits := ⟨∅, Table.empty.insert .rawA 5⟩
  roster :=
    ⟨Table.empty.insert .first
      { Character.spawn .first "owner" "first" ⟨3, 4⟩ with
        inventory := Table.empty.insert .rawA 5 }, ⟨2⟩⟩
  loot := .empty

def rules : BlockRules := ⟨10, fun _ _ ↦ some ⟨.rawB, 7⟩, .walk⟩

/-- A second character is created, and the first drops three units and prospects. -/
def block : BlockInput where
  height := 1
  hash := ⟨"block"⟩
  parent := ⟨"genesis"⟩
  creates := [⟨"owner", "second", ⟨0, 0⟩⟩]
  moves := [(.first, ⟨[.drop (Table.empty.insert .rawA 3), .prospect]⟩)]

end Sample

section Block

variable {rules : BlockRules} {b : BlockInput}

theorem Turn.logged_of_ok (h : Turn.block rules b ⟨s, .new height⟩ = .ok () p) :
    Logged ⟨s, .new height⟩ p :=
  (Turn.block_logs rules b _).of_ok (Logged.refl _) h

theorem Turn.logged_of_error {e : BlockError}
    (h : Turn.block rules b ⟨s, .new height⟩ = .error e p) :
    e.BreaksOff ∧ Logged ⟨s, .new height⟩ p :=
  (Turn.block_logs rules b _).of_error (Logged.refl _) h

/-- What a block that succeeds answers. -/
theorem processBlock_ok {undo : BlockUndo} {s' : GameState}
    (h : processBlock rules b s = .ok undo s') (hs : s.WellFormed) :
    Turn.block rules b ⟨s, .new b.height⟩ = .ok () ⟨s', undo⟩ ∧ undo.height = b.height ∧
      s'.WellFormed ∧ undo.revertOn GameState.revert s' = .ok () s := by
  unfold processBlock at h
  cases hrun : Turn.block rules b ⟨s, .new b.height⟩ with
  | ok _ p =>
    rw [hrun] at h
    cases h
    have hlogged := Turn.logged_of_ok hrun
    exact ⟨rfl, hlogged.height_eq, hlogged.wellFormed hs, hlogged.revertOn hs⟩
  | error e p =>
    rw [hrun] at h
    obtain ⟨-, hlogged⟩ := Turn.logged_of_error hrun
    simp only [hlogged.revertOn hs] at h
    cases h

/-- A block that fails does so with the error that made it break off. -/
theorem processBlock_error {e : BlockError} {s' : GameState}
    (h : processBlock rules b s = .error e s') (hs : s.WellFormed) :
    s' = s ∧ e.BreaksOff ∧ ∃ p, Turn.block rules b ⟨s, .new b.height⟩ = .error e p := by
  unfold processBlock at h
  cases hrun : Turn.block rules b ⟨s, .new b.height⟩ with
  | ok _ p =>
    rw [hrun] at h
    cases h
  | error e' p =>
    rw [hrun] at h
    obtain ⟨hcause, hlogged⟩ := Turn.logged_of_error hrun
    simp only [hlogged.revertOn hs] at h
    cases h
    exact ⟨rfl, hcause, p, rfl⟩

/-- A block either changes nothing or answers a record that takes all its changes back, and its
changes can always be taken back. -/
theorem processBlock_all_or_nothing (rules : BlockRules) (b : BlockInput) (s : GameState)
    (hs : s.WellFormed) :
    match processBlock rules b s with
    | .ok undo s' =>
      undo.height = b.height ∧ s'.WellFormed ∧ undo.revertOn GameState.revert s' = .ok () s
    | .error e s' => s' = s ∧ ∀ cause, e ≠ .rollback cause := by
  cases hrun : processBlock rules b s with
  | ok undo s' =>
    obtain ⟨-, hheight, hwell, hback⟩ := processBlock_ok hrun hs
    exact ⟨hheight, hwell, hback⟩
  | error e s' =>
    obtain ⟨hsame, hcause, -⟩ := processBlock_error hrun hs
    exact ⟨hsame, hcause⟩

theorem processBlock_sample : Sample.state.WellFormed ∧
    ∃ undo s', processBlock Sample.rules Sample.block Sample.state = .ok undo s' ∧
      undo.deltas.length = 4 ∧ undo.revertOn GameState.revert s' = .ok () Sample.state := by
  have hwell : Sample.state.WellFormed := by decide
  have hdeltas : (match processBlock Sample.rules Sample.block Sample.state with
      | .ok undo _ => undo.deltas.length
      | .error _ _ => 0) = 4 := by decide
  have hblock := processBlock_all_or_nothing Sample.rules Sample.block Sample.state hwell
  cases hrun : processBlock Sample.rules Sample.block Sample.state with
  | ok undo s' =>
    rw [hrun] at hdeltas hblock
    exact ⟨hwell, undo, s', rfl, hdeltas, hblock.2.2⟩
  | error e s' =>
    rw [hrun] at hdeltas
    cases hdeltas

end Block

end MiningGame
