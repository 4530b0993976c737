import MiningGame.Proofs.Sound

/-!
# Single steps of a run

Taking back the tip never fails above the lowest place that may be gone back to, and attaching a
block either leaves the node alone or puts the block on top of the branch. Both keep what holds
along a run.
-/

namespace MiningGame.Trail

variable {rules : BlockRules} {o : Origin} {n : Node} {m : Milestone} {branch : List Milestone}
  {peak : Nat}

/-- A node whose tip is taken back, so that it stands at the place before. -/
def withoutTip (n : Node) (p : Place) : Node :=
  ⟨{ n.chain with
      journal := ⟨n.chain.journal.blocks.erase n.chain.tip.height⟩
      hashes := n.chain.hashes.erase n.chain.tip.height
      tip := p.tip }, p.state⟩

namespace Sound

/-! ## Taking blocks back -/

theorem tip_height (h : (Trail.mk n (m :: branch) peak).Sound rules o) :
    n.chain.tip.height = m.block.height := congrArg ChainTip.height h.tip_eq

/-- The record of the tip is in the journal, and it leads back to the place before. -/
theorem tip_record (h : (Trail.mk n (m :: branch) peak).Sound rules o)
    (hlow : (Trail.mk n (m :: branch) peak).low o < m.block.height.toNat) :
    ∃ undo, n.chain.journal.blocks.get? n.chain.tip.height = some undo ∧
      undo.revertOn GameState.revert n.state = .ok () (top o branch).state := by
  have hlinked := h.linked
  have hstate : n.state = m.state := h.state_eq
  cases hlinked with
  | @cons _ _ undo continues processed rest =>
    have hrec : Recorded rules o (m :: branch) m.block.height undo := .head processed
    refine ⟨undo, ?_, ?_⟩
    · rw [h.tip_height]
      exact h.kept _ _ hrec hlow
    · rw [hstate]
      exact h.linked.back hrec

theorem parent_height (h : (Trail.mk n (m :: branch) peak).Sound rules o) :
    Word.sub? n.chain.tip.height 1 = some (top o branch).tip.height := by
  have hsucc := h.linked.height_succ
  rw [h.tip_height, Word.sub?_eq_some_iff, UInt64.toNat_one]
  exact hsucc

theorem parent_hash (h : (Trail.mk n (m :: branch) peak).Sound rules o)
    (hlow : (Trail.mk n (m :: branch) peak).low o < m.block.height.toNat) :
    (n.chain.hashes.erase n.chain.tip.height).get? (top o branch).tip.height =
      some (top o branch).tip.hash := by
  have hsucc := h.linked.height_succ
  have hne : (top o branch).tip.height ≠ n.chain.tip.height := by
    intro heq
    rw [h.tip_height] at heq
    rw [heq] at hsucc
    omega
  rw [Table.get?_erase_of_ne _ hne]
  exact (h.hashes _ _).2
    ⟨by omega, top o branch, List.mem_cons_of_mem _ (top_mem_places o branch), rfl⟩

/-- Above the lowest place that may be gone back to, the tip can be taken back. -/
theorem undoTip_eq (h : (Trail.mk n (m :: branch) peak).Sound rules o)
    (hlow : (Trail.mk n (m :: branch) peak).low o < m.block.height.toNat) :
    Node.undoTip n = .ok () (withoutTip n (top o branch)) := by
  obtain ⟨undo, hundo, hback⟩ := h.tip_record hlow
  unfold Node.undoTip
  simp only [UndoJournal.undo_eq_ok hundo h.newest hback, h.parent_height, h.parent_hash hlow]
  rfl

theorem undoTip (h : (Trail.mk n (m :: branch) peak).Sound rules o)
    (hlow : (Trail.mk n (m :: branch) peak).low o < m.block.height.toNat) :
    (Trail.mk (withoutTip n (top o branch)) branch peak).Sound rules o := by
  have hsucc := h.linked.height_succ
  have htip := h.tip_height
  refine ⟨h.linked.rest, rfl, h.depth, ?_, ?_, ?_, ?_, ?_⟩
  · change (Trail.mk n (m :: branch) peak).low o ≤ (top o branch).tip.height.toNat
    omega
  · have hpeak := h.le_peak
    change n.chain.tip.height.toNat ≤ peak at hpeak
    change (top o branch).tip.height.toNat ≤ peak
    rw [htip] at hpeak
    omega
  · intro k hash
    change (n.chain.hashes.erase n.chain.tip.height).get? k = some hash ↔ _
    rw [Table.get?_erase, htip]
    constructor
    · intro hget
      split at hget
      · cases hget
      · next hk =>
        obtain ⟨hle, p, hp, hplace⟩ := (h.hashes k hash).1 hget
        refine ⟨hle, p, ?_, hplace⟩
        rcases mem_places_cons.1 hp with rfl | hp
        · exact absurd (congrArg (fun tip ↦ rank tip.height) hplace.symm) hk
        · exact hp
    · rintro ⟨hle, p, hp, hplace⟩
      have hlt := h.linked.height_lt hp
      rw [hplace] at hlt
      rw [if_neg (show ¬ rank k = rank m.block.height from Nat.ne_of_lt hlt)]
      exact (h.hashes k hash).2 ⟨hle, p, List.mem_cons_of_mem _ hp, hplace⟩
  · intro k old hget
    change (n.chain.journal.blocks.erase n.chain.tip.height).get? k = some old at hget
    rw [Table.get?_erase, htip] at hget
    split at hget
    · cases hget
    · next hk =>
      exact Linked.recorded_rest (h.recorded k old hget) (mt rank_inj.2 hk)
  · intro k old hrec hk
    have hle := (h.linked.rest.recorded_height hrec).2
    have hne : k ≠ n.chain.tip.height := by
      rintro rfl
      rw [htip] at hle
      omega
    change (n.chain.journal.blocks.erase n.chain.tip.height).get? k = some old
    rw [Table.get?_erase_of_ne _ hne]
    exact h.kept k old (.tail hrec) hk

/-! ## Attaching a block -/

/-- A block that continues the tip and can be processed is attached. -/
theorem attach_eq_ok {b : BlockInput} {undo : BlockUndo} {s' : GameState}
    (h : (Trail.mk n branch peak).Sound rules o)
    (hcontinued : n.chain.continuedBy b = true)
    (hprocess : processBlock rules b n.state = .ok undo s') :
    Node.attach rules b n =
      .ok () ⟨n.chain.advanced b ⟨n.chain.journal.blocks.insert b.height undo⟩, s'⟩ := by
  obtain ⟨-, hheight, -⟩ := processBlock_ok hprocess h.wellFormed
  have hsucc := Word.add?_eq_some_iff.1 (ChainContext.continuedBy_iff.1 hcontinued).1
  rw [UInt64.toNat_one] at hsucc
  have hfresh : ∀ k ∈ n.chain.journal.blocks.keys, k.toNat < undo.height.toNat := by
    intro k hk
    have hle : k.toNat ≤ n.chain.tip.height.toNat := h.newest k hk
    rw [hheight]
    omega
  unfold Node.attach
  simp only [hcontinued, Bool.not_true, Bool.false_eq_true, if_false, hprocess,
    UndoJournal.record_eq_ok hfresh, hheight]

/-- A block that is not attached leaves the node as it was. -/
theorem attach_cases (h : (Trail.mk n branch peak).Sound rules o) (b : BlockInput) :
    (∃ e, Node.attach rules b n = .error e n) ∨
      ∃ undo s', n.chain.continuedBy b = true ∧ processBlock rules b n.state = .ok undo s' ∧
        Node.attach rules b n =
          .ok () ⟨n.chain.advanced b ⟨n.chain.journal.blocks.insert b.height undo⟩, s'⟩ := by
  by_cases hcontinued : n.chain.continuedBy b = true
  · cases hprocess : processBlock rules b n.state with
    | error e s' =>
      obtain ⟨rfl, -⟩ := processBlock_error hprocess h.wellFormed
      unfold Node.attach
      simp only [hcontinued, Bool.not_true, Bool.false_eq_true, if_false, hprocess]
      exact .inl ⟨_, rfl⟩
    | ok undo s' => exact .inr ⟨undo, s', hcontinued, rfl, h.attach_eq_ok hcontinued hprocess⟩
  · unfold Node.attach
    simp only [hcontinued, Bool.not_false, if_true]
    exact .inl ⟨_, rfl⟩

theorem low_max (peak height : Nat) (n n' : Node) (branch branch' : List Milestone) :
    (Trail.mk n' branch' (max peak height)).low o =
      max ((Trail.mk n branch peak).low o) (height - o.undoDepth.toNat) := by
  unfold low
  simp only
  omega

section Advanced

variable {b : BlockInput} {undo : BlockUndo} {s' : GameState} {k : UInt64}

theorem hashes_advanced {hash : BlockHash} (h : (Trail.mk n branch peak).Sound rules o)
    (hnext : n.chain.tip.height.toNat + 1 = b.height.toNat) (journal : UndoJournal) :
    (n.chain.advanced b journal).hashes.get? k = some hash ↔
      max ((Trail.mk n branch peak).low o) (b.height.toNat - o.undoDepth.toNat) ≤ k.toNat ∧
        ∃ p ∈ places o (⟨b, s'⟩ :: branch), p.tip = ⟨k, hash⟩ := by
  have hdepth : n.chain.undoDepth = o.undoDepth := h.depth
  have hle : (Trail.mk n branch peak).low o ≤ n.chain.tip.height.toNat := h.low_le
  have htip : n.chain.tip = (top o branch).tip := h.tip_eq
  unfold ChainContext.advanced
  rw [ChainContext.get?_hashes_pruned]
  simp only [Table.get?_insert, hdepth]
  constructor
  · rintro ⟨hget, hdeep⟩
    split at hget
    · next hk =>
      cases hget
      obtain rfl := rank_injective hk
      exact ⟨by omega, _, List.mem_cons_self, rfl⟩
    · obtain ⟨hlow, p, hp, hplace⟩ := (h.hashes k hash).1 hget
      exact ⟨Nat.max_le.2 ⟨hlow, hdeep⟩, p, List.mem_cons_of_mem _ hp, hplace⟩
  · rintro ⟨hmax, p, hp, hplace⟩
    obtain ⟨hlow, hdeep⟩ := Nat.max_le.1 hmax
    refine ⟨?_, hdeep⟩
    rcases mem_places_cons.1 hp with rfl | hp
    · cases hplace
      exact if_pos rfl
    · have htop := h.linked.height_le hp
      rw [hplace, ← htip] at htop
      change k.toNat ≤ n.chain.tip.height.toNat at htop
      have hne : k ≠ b.height := by
        rintro rfl
        omega
      rw [if_neg (mt rank_inj.1 hne)]
      exact (h.hashes k hash).2 ⟨hlow, p, hp, hplace⟩

theorem recorded_advanced {old : BlockUndo} (h : (Trail.mk n branch peak).Sound rules o)
    (hprocess : processBlock rules b n.state = .ok undo s')
    (hget : (n.chain.advanced b ⟨n.chain.journal.blocks.insert b.height undo⟩).journal.blocks.get? k
      = some old) : Recorded rules o (⟨b, s'⟩ :: branch) k old := by
  have hstate : n.state = (top o branch).state := h.state_eq
  have hinsert := ChainContext.get?_journal_of_pruned hget
  simp only [Table.get?_insert] at hinsert
  split at hinsert
  · next hk =>
    cases hinsert
    obtain rfl := rank_injective hk
    exact .head (hstate ▸ hprocess)
  · exact .tail (h.recorded k old hinsert)

theorem kept_advanced {old : BlockUndo} (h : (Trail.mk n branch peak).Sound rules o)
    (hnext : n.chain.tip.height.toNat + 1 = b.height.toNat)
    (hprocess : processBlock rules b n.state = .ok undo s')
    (hrec : Recorded rules o (⟨b, s'⟩ :: branch) k old)
    (hk : max ((Trail.mk n branch peak).low o) (b.height.toNat - o.undoDepth.toNat) < k.toNat) :
    (n.chain.advanced b ⟨n.chain.journal.blocks.insert b.height undo⟩).journal.blocks.get? k =
      some old := by
  have hdepth : n.chain.undoDepth = o.undoDepth := h.depth
  have hstate : n.state = (top o branch).state := h.state_eq
  have htip : n.chain.tip = (top o branch).tip := h.tip_eq
  obtain ⟨hlow, hdeep⟩ := Nat.max_lt.1 hk
  rw [← hdepth] at hdeep
  refine (ChainContext.get?_journal_pruned_iff (by omega)).2 ⟨?_, .inl hdeep⟩
  cases hrec with
  | head processed =>
    -- Processing the block has one outcome only, so this is the record just added.
    rw [← hstate] at processed
    have hsame := processed.symm.trans hprocess
    cases hsame
    exact Table.get?_insert_self _ _ _
  | tail below =>
    have htop := (h.linked.recorded_height below).2
    rw [← htip] at htop
    have hne : k ≠ b.height := by
      rintro rfl
      omega
    simp only [Table.get?_insert_of_ne _ _ hne]
    exact h.kept k old below hlow

theorem advanced (h : (Trail.mk n branch peak).Sound rules o)
    (hnext : Word.add? n.chain.tip.height 1 = some b.height)
    (hprocess : processBlock rules b n.state = .ok undo s') :
    (Trail.mk ⟨n.chain.advanced b ⟨n.chain.journal.blocks.insert b.height undo⟩, s'⟩
      (⟨b, s'⟩ :: branch) (max peak b.height.toNat)).Sound rules o := by
  have hsucc := Word.add?_eq_some_iff.1 hnext
  rw [UInt64.toNat_one] at hsucc
  have hplace : n.place = top o branch := h.here
  have hle : (Trail.mk n branch peak).low o ≤ n.chain.tip.height.toNat := h.low_le
  refine ⟨?_, ?_, ?_, ?_, ?_, ?_, ?_, ?_⟩
  · have hcontinues : Word.add? (top o branch).tip.height 1 = some b.height := hplace ▸ hnext
    have hprocessed : processBlock rules b (top o branch).state = .ok undo s' :=
      hplace ▸ hprocess
    exact .cons hcontinues hprocessed h.linked
  · exact congrArg (fun tip ↦ Place.mk tip s') (ChainContext.pruned_tip _)
  · exact (ChainContext.pruned_undoDepth _).trans h.depth
  · simp only [low_max peak b.height.toNat n _ branch, ChainContext.advanced,
      ChainContext.pruned_tip]
    omega
  · simp only [ChainContext.advanced, ChainContext.pruned_tip]
    exact Nat.le_max_right _ _
  · intro k hash
    rw [low_max peak b.height.toNat n _ branch]
    exact h.hashes_advanced hsucc _
  · intro k old hget
    exact h.recorded_advanced hprocess hget
  · intro k old hrec hk
    rw [low_max peak b.height.toNat n _ branch] at hk
    exact h.kept_advanced hsucc hprocess hrec hk

end Advanced

theorem attach_ok {b : BlockInput} {n' : Node} (h : (Trail.mk n branch peak).Sound rules o)
    (hrun : Node.attach rules b n = .ok () n') :
    ∃ undo, n.chain.continuedBy b = true ∧ processBlock rules b n.state = .ok undo n'.state ∧
      n'.chain = n.chain.advanced b ⟨n.chain.journal.blocks.insert b.height undo⟩ := by
  obtain ⟨e, herror⟩ | ⟨undo, s', hcontinued, hprocess, hattach⟩ := h.attach_cases b
  · rw [herror] at hrun
    cases hrun
  · rw [hattach] at hrun
    cases hrun
    exact ⟨undo, hcontinued, hprocess, rfl⟩

theorem attach_height {b : BlockInput} {n' : Node} (h : (Trail.mk n branch peak).Sound rules o)
    (hrun : Node.attach rules b n = .ok () n') :
    n.chain.tip.height.toNat + 1 = n'.chain.tip.height.toNat := by
  obtain ⟨undo, hcontinued, -, hchain⟩ := h.attach_ok hrun
  rw [hchain, ChainContext.advanced_tip]
  exact Word.add?_eq_some_iff.1 (ChainContext.continuedBy_iff.1 hcontinued).1

theorem attach {b : BlockInput} {n' : Node} (h : (Trail.mk n branch peak).Sound rules o)
    (hrun : Node.attach rules b n = .ok () n') :
    (Trail.mk n' (⟨b, n'.state⟩ :: branch) (max peak n'.chain.tip.height.toNat)).Sound
      rules o := by
  obtain ⟨undo, hcontinued, hprocess, hchain⟩ := h.attach_ok hrun
  have hsound := h.advanced (ChainContext.continuedBy_iff.1 hcontinued).1 hprocess
  rw [← hchain] at hsound
  rw [hchain, ChainContext.advanced_tip]
  exact hsound

theorem attach_error {b : BlockInput} {n' : Node} {e : ChainError}
    (h : (Trail.mk n branch peak).Sound rules o) (hrun : Node.attach rules b n = .error e n') :
    n' = n := by
  obtain ⟨e', herror⟩ | ⟨undo, s', -, -, hattach⟩ := h.attach_cases b
  · rw [herror] at hrun
    cases hrun
    rfl
  · rw [hattach] at hrun
    cases hrun

end Sound

end MiningGame.Trail
