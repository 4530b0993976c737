import MiningGame.Proofs.Shifts

/-!
# Runs

After any calls, failing ones included, the confirmed state depends on the surviving blocks only,
not on the path that led to them, and the heights that can be gone back to are a window below the
greatest tip.
-/

namespace MiningGame.Trail

variable {rules : BlockRules} {o : Origin} {t : Trail} {branch : List Milestone}

/-! ## The confirmed state -/

/-- The state that processing blocks one after the other gives, unless one of them fails. -/
def replay (rules : BlockRules) (s : GameState) : List BlockInput → Option GameState
  | [] => some s
  | b :: rest =>
    match processBlock rules b s with
    | .ok _ s' => replay rules s' rest
    | .error _ _ => none

theorem replay_concat {s s' s'' : GameState} {b : BlockInput} {undo : BlockUndo}
    {blocks : List BlockInput} (h : replay rules s blocks = some s')
    (hlast : processBlock rules b s' = .ok undo s'') :
    replay rules s (blocks ++ [b]) = some s'' := by
  induction blocks generalizing s with
  | nil =>
    cases h
    simp only [List.nil_append, replay, hlast]
  | cons first rest ih =>
    simp only [replay] at h
    simp only [List.cons_append, replay]
    split at h
    · exact ih h
    · cases h

theorem Linked.replay (h : Linked rules o branch) :
    Trail.replay rules (.new o.grid) ((branch.map Milestone.block).reverse) =
      some (top o branch).state := by
  induction h with
  | nil => rfl
  | cons continues processed rest ih =>
    rw [List.map_cons, List.reverse_cons]
    exact replay_concat ih processed

/-- Whatever calls were made, failing ones included, the state is the one that processing the
surviving blocks from the start gives, and the tip is the newest of them. -/
theorem run_state (rules : BlockRules) (o : Origin) (calls : List Call) :
    replay rules (.new o.grid) (run rules o calls).blocks = some (run rules o calls).node.state ∧
      (run rules o calls).node.chain.tip = (top o (run rules o calls).branch).tip := by
  have h := sound_run rules o calls
  rw [h.state_eq]
  exact ⟨h.linked.replay, h.tip_eq⟩

-- A block that does not continue the tip is refused, and a reorganisation replaces what lies above
-- its ancestor, up to its first block that is refused.
example :
    let b (height : UInt64) (hash parent : String) : BlockInput :=
      ⟨height, ⟨hash⟩, ⟨parent⟩, [], []⟩
    (run ⟨1, fun _ _ ↦ none, .walk⟩ ⟨⟨10, by decide, by decide⟩, 0, ⟨"genesis"⟩, 5⟩
      [.attach (b 1 "a" "genesis"), .attach (b 2 "b" "a"), .attach (b 2 "b" "a"),
        .update ⟨⟨"e"⟩, true, [b 2 "c" "a", b 4 "e" "d"]⟩]).blocks =
      [b 1 "a" "genesis", b 2 "c" "a"] := by
  decide

/-! ## The window -/

theorem Sound.window (h : t.Sound rules o) (height : UInt64) :
    ((∃ n, Node.rollbackTo height t.node = .ok () n) ↔
        t.low o ≤ height.toNat ∧ height.toNat ≤ t.node.chain.tip.height.toNat) ∧
      match Node.rollbackTo height t.node with
      | .ok _ n => n.chain.tip.height = height ∧ t.placeAt? o height = some n.place
      | .error _ n => n = t.node := by
  by_cases hwindow : t.low o ≤ height.toNat ∧ height.toNat ≤ t.node.chain.tip.height.toNat
  · obtain ⟨n, hrun, hshifts⟩ := rollbackTo_ok h hwindow.1 hwindow.2
    have hsound := hshifts.sound h
    have horigin : o.height.toNat ≤ height.toNat := Nat.le_trans (origin_le_low t) hwindow.1
    have htop : height.toNat ≤ (top o t.branch).tip.height.toNat := by
      rw [← h.tip_eq]
      exact hwindow.2
    rw [hrun]
    refine ⟨⟨fun _ ↦ hwindow, fun _ ↦ ⟨n, rfl⟩⟩, ?_, ?_⟩
    · rw [hsound.tip_eq]
      exact (h.linked.top_upTo horigin htop).1
    · rw [hsound.here]
      exact h.linked.find?_height horigin htop
  · obtain ⟨e, hrun⟩ := rollbackTo_error h hwindow
    rw [hrun]
    refine ⟨⟨?_, fun hin ↦ absurd hin hwindow⟩, rfl⟩
    rintro ⟨n, hn⟩
    cases hn

/-- A run can be taken back to exactly the heights from as many blocks below its greatest tip as
the undo depth says, but no lower than its origin, up to the tip. Going back restores the place
that the surviving branch has at the height, and a refused call changes nothing. -/
theorem rollback_window (rules : BlockRules) (o : Origin) (calls : List Call) (height : UInt64) :
    let t := run rules o calls
    let low := max o.height.toNat (t.peak - o.undoDepth.toNat)
    t.node.chain.horizon.toNat = low ∧
      ((∃ n, Node.rollbackTo height t.node = .ok () n) ↔
        low ≤ height.toNat ∧ height.toNat ≤ t.node.chain.tip.height.toNat) ∧
      match Node.rollbackTo height t.node with
      | .ok _ n => n.chain.tip.height = height ∧ t.placeAt? o height = some n.place
      | .error _ n => n = t.node :=
  have h := sound_run rules o calls
  ⟨h.horizon, h.window height⟩

end MiningGame.Trail
