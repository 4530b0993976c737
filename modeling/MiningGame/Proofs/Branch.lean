import MiningGame.Proofs.AllOrNothing
import MiningGame.Proofs.Trail

/-!
# Branches

In a linked branch every block was processed from the place before it, one height further up. So
its heights run from the origin to the tip without a gap, its states are well-formed, and the
record of each block leads back to the place before.
-/

namespace MiningGame.Trail

variable {rules : BlockRules} {o : Origin} {m : Milestone} {branch : List Milestone}

/-- Every block continues the place before it and leads to the state that it stands for. -/
inductive Linked (rules : BlockRules) (o : Origin) : List Milestone → Prop
  | nil : Linked rules o []
  | cons {m : Milestone} {branch : List Milestone} {undo : BlockUndo}
      (continues : Word.add? (top o branch).tip.height 1 = some m.block.height)
      (processed : processBlock rules m.block (top o branch).state = .ok undo m.state)
      (rest : Linked rules o branch) : Linked rules o (m :: branch)

/-- The undo record that processing the block at a height answered. -/
inductive Recorded (rules : BlockRules) (o : Origin) :
    List Milestone → UInt64 → BlockUndo → Prop
  | head {m : Milestone} {branch : List Milestone} {undo : BlockUndo}
      (processed : processBlock rules m.block (top o branch).state = .ok undo m.state) :
      Recorded rules o (m :: branch) m.block.height undo
  | tail {m : Milestone} {branch : List Milestone} {k : UInt64} {undo : BlockUndo}
      (below : Recorded rules o branch k undo) : Recorded rules o (m :: branch) k undo

theorem top_mem_places (o : Origin) (branch : List Milestone) : top o branch ∈ places o branch := by
  cases branch with
  | nil => exact List.mem_singleton_self o.place
  | cons m rest => exact List.mem_cons_self

theorem mem_places_cons {p : Place} :
    p ∈ places o (m :: branch) ↔ p = m.place ∨ p ∈ places o branch := List.mem_cons

namespace Linked

theorem wellFormed (h : Linked rules o branch) : (top o branch).state.WellFormed := by
  induction h with
  | nil => exact GameState.wellFormed_new o.grid
  | cons _ processed _ ih =>
    obtain ⟨-, -, hwell, -⟩ := processBlock_ok processed ih
    exact hwell

theorem height_succ (h : Linked rules o (m :: branch)) :
    (top o branch).tip.height.toNat + 1 = m.block.height.toNat := by
  cases h with
  | cons continues _ _ => exact Word.add?_eq_some_iff.1 continues

theorem rest (h : Linked rules o (m :: branch)) : Linked rules o branch := by
  cases h with
  | cons _ _ hrest => exact hrest

theorem origin_le (h : Linked rules o branch) :
    o.height.toNat ≤ (top o branch).tip.height.toNat := by
  induction branch with
  | nil => exact Nat.le_refl _
  | cons m branch ih =>
    have hrest := ih h.rest
    have hsucc := h.height_succ
    change o.height.toNat ≤ m.block.height.toNat
    omega

theorem height_le {p : Place} (h : Linked rules o branch) (hp : p ∈ places o branch) :
    p.tip.height.toNat ≤ (top o branch).tip.height.toNat := by
  induction branch with
  | nil =>
    rw [List.mem_singleton.1 hp]
    exact Nat.le_refl _
  | cons m branch ih =>
    rcases mem_places_cons.1 hp with rfl | hp
    · exact Nat.le_refl _
    · have hrest := ih h.rest hp
      have hsucc := h.height_succ
      change p.tip.height.toNat ≤ m.block.height.toNat
      omega

theorem height_lt {p : Place} (h : Linked rules o (m :: branch)) (hp : p ∈ places o branch) :
    p.tip.height.toNat < m.block.height.toNat := by
  have hle := h.rest.height_le hp
  have hsucc := h.height_succ
  omega

theorem descending (h : Linked rules o branch) :
    (places o branch).Pairwise fun p q ↦ q.tip.height.toNat < p.tip.height.toNat := by
  induction branch with
  | nil => exact List.pairwise_singleton _ _
  | cons m branch ih => exact List.pairwise_cons.2 ⟨fun p hp ↦ h.height_lt hp, ih h.rest⟩

theorem recorded_height {k : UInt64} {undo : BlockUndo} (h : Linked rules o branch)
    (hrec : Recorded rules o branch k undo) :
    o.height.toNat < k.toNat ∧ k.toNat ≤ (top o branch).tip.height.toNat := by
  induction hrec with
  | @head m branch undo _ =>
    have hsucc := h.height_succ
    have horigin := h.rest.origin_le
    exact ⟨by omega, Nat.le_refl _⟩
  | @tail m branch k undo _ ih =>
    obtain ⟨hlow, htop⟩ := ih h.rest
    have hsucc := h.height_succ
    refine ⟨hlow, ?_⟩
    change k.toNat ≤ m.block.height.toNat
    omega

theorem recorded_rest {k : UInt64} {undo : BlockUndo}
    (hrec : Recorded rules o (m :: branch) k undo) (hk : k ≠ m.block.height) :
    Recorded rules o branch k undo := by
  cases hrec with
  | head => exact absurd rfl hk
  | tail below => exact below

/-- The record of the newest block leads back to the place before it. -/
theorem back {undo : BlockUndo} (h : Linked rules o (m :: branch))
    (hrec : Recorded rules o (m :: branch) m.block.height undo) :
    undo.revertOn GameState.revert m.state = .ok () (top o branch).state := by
  cases hrec with
  | head processed =>
    obtain ⟨-, -, -, hback⟩ := processBlock_ok processed h.rest.wellFormed
    exact hback
  | tail below =>
    have hle := (h.rest.recorded_height below).2
    have hsucc := h.height_succ
    omega

theorem upTo_eq_self {k : UInt64} (h : Linked rules o branch)
    (hk : (top o branch).tip.height.toNat ≤ k.toNat) : upTo branch k = branch := by
  refine List.filter_eq_self.2 fun m hm ↦ ?_
  have hle := h.height_le (List.mem_append_left _ (List.mem_map_of_mem hm))
  simp only [decide_eq_true_eq, UInt64.le_iff_toNat_le]
  exact Nat.le_trans hle hk

theorem upTo_cons {k : UInt64} (hk : k.toNat < m.block.height.toNat) :
    upTo (m :: branch) k = upTo branch k := by
  refine List.filter_cons_of_neg ?_
  simp only [decide_eq_true_eq, UInt64.le_iff_toNat_le]
  omega

/-- No height between the origin and the tip is left out, and cutting the branch at one leaves the
place there on top. -/
theorem find?_height {k : UInt64} (h : Linked rules o branch) (hlow : o.height.toNat ≤ k.toNat)
    (htop : k.toNat ≤ (top o branch).tip.height.toNat) :
    (places o branch).find? (fun p ↦ p.tip.height = k) = some (top o (upTo branch k)) := by
  induction branch with
  | nil =>
    have hk : o.place.tip.height = k := UInt64.toNat_inj.1 (Nat.le_antisymm hlow htop)
    exact List.find?_cons_of_pos (decide_eq_true hk)
  | cons m branch ih =>
    by_cases hk : m.block.height = k
    · rw [h.upTo_eq_self (Nat.le_of_eq (congrArg UInt64.toNat hk))]
      exact List.find?_cons_of_pos (decide_eq_true hk)
    · have hne : m.block.height.toNat ≠ k.toNat := mt UInt64.toNat_inj.1 hk
      have hsucc := h.height_succ
      change k.toNat ≤ m.block.height.toNat at htop
      rw [upTo_cons (by omega), ← ih h.rest (by omega)]
      exact List.find?_cons_of_neg (mt of_decide_eq_true hk)

theorem top_upTo {k : UInt64} (h : Linked rules o branch) (hlow : o.height.toNat ≤ k.toNat)
    (htop : k.toNat ≤ (top o branch).tip.height.toNat) :
    (top o (upTo branch k)).tip.height = k ∧ top o (upTo branch k) ∈ places o branch := by
  have hfind := h.find?_height hlow htop
  exact ⟨by simpa using List.find?_some hfind, List.mem_of_find?_eq_some hfind⟩

end Linked

end MiningGame.Trail
