import MiningGame.Proofs.Failures
import MiningGame.Proofs.Runs

/-!
# Conservation along runs

The resources balance in every state of a run, since every state comes from the first by blocks
that succeeded. So the two ways in which a block fails in a balanced state are the only ones that
a run ever meets.
-/

namespace MiningGame.Trail

variable {rules : BlockRules} {o : Origin} {branch : List Milestone}

theorem Linked.balanced (h : Linked rules o branch) : (top o branch).state.Balanced := by
  induction h with
  | nil => exact GameState.balanced_new o.grid
  | cons _ processed rest ih => exact processBlock_balanced processed rest.wellFormed ih

/-- After any calls, for every resource, what was ever prospected is what remains in deposits, is
carried and lies on the ground. Hence a block can only fail because a prospection overflows the
total of its resource, or because the numbers for characters ran out. -/
theorem run_conserves (rules : BlockRules) (o : Origin) (calls : List Call) :
    let s := (run rules o calls).node.state
    (∀ r, s.deposits.prospectedOf r =
      s.deposits.remainingOf r + s.roster.carriedOf r + s.loot.lyingOf r) ∧
    ∀ (rules' : BlockRules) (b : BlockInput), match processBlock rules' b s with
      | .ok _ s' => s'.Balanced
      | .error e _ => ∃ p, Turn.block rules' b ⟨s, .new b.height⟩ = .error e p ∧
        (e = .world .arithmeticOverflow ∧
            (∃ id m, (id, m) ∈ (CharacterMove.merge b.moves).entries ∧
              .prospect ∈ m.resolve.directives ∧
              ProspectionOverflows rules'.prospector b.height id p.state) ∨
          e = .character .idsExhausted ∧ ∃ c ∈ b.creates, IdsRunOut c p.state) := by
  intro s
  have hsound : (run rules o calls).Sound rules o := sound_run rules o calls
  have hbalanced : s.Balanced := by
    have hlinked := hsound.linked.balanced
    rw [← hsound.state_eq] at hlinked
    exact hlinked
  refine ⟨hbalanced, fun rules' b ↦ ?_⟩
  cases hrun : processBlock rules' b s with
  | ok undo s' => exact processBlock_balanced hrun hsound.wellFormed hbalanced
  | error e s' =>
    obtain ⟨p, hp, hfailure⟩ := processBlock_failure hrun hsound.wellFormed hbalanced
    refine ⟨p, hp, ?_⟩
    cases hfailure with
    | @overflow id m _ moved asked found => exact .inl ⟨rfl, id, m, moved, asked, found⟩
    | @exhausted c _ asked last => exact .inr ⟨rfl, c, asked, last⟩

end MiningGame.Trail
