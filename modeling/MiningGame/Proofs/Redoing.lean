import MiningGame.Proofs.Horizon
import MiningGame.Proofs.Snapshots

/-!
# Taking blocks back and attaching them again

A reorganisation may replace a part of the branch by the same blocks. Each of them is processed
from the state that it was processed from before, so it succeeds again with the same record, and
the node ends up with the branch and the peak that it had. These determine all that a node keeps
(`Sound.node_eq`), hence nothing has changed.
-/

namespace MiningGame

theorem ChainUpdate.ancestor_concat (hash : BlockHash) (reorg : Bool) (blocks : List BlockInput)
    (b : BlockInput) :
    ancestor ⟨hash, reorg, blocks ++ [b]⟩ = ancestor ⟨b.parent, reorg, blocks⟩ := by
  cases blocks <;> rfl

namespace Trail

variable {rules : BlockRules} {o : Origin} {t t' : Trail} {n n' : Node} {m : Milestone}
  {branch : List Milestone} {peak : Nat} {height : UInt64}

/-- Branch and peak determine all that a node keeps. -/
theorem Sound.node_eq (h : (Trail.mk n branch peak).Sound rules o)
    (htrimmed : (Trail.mk n branch peak).Trimmed rules o)
    (h' : (Trail.mk n' branch peak).Sound rules o)
    (htrimmed' : (Trail.mk n' branch peak).Trimmed rules o) : n' = n := by
  have hhashes : n'.chain.hashes = n.chain.hashes :=
    Table.ext_get? fun k ↦ Option.ext fun hash ↦ (h'.hashes k hash).trans (h.hashes k hash).symm
  have hjournal : n'.chain.journal.blocks = n.chain.journal.blocks :=
    Table.ext_get? fun k ↦ Option.ext fun undo ↦ (htrimmed' k undo).trans (htrimmed k undo).symm
  have htip : n'.chain.tip = n.chain.tip := h'.tip_eq.trans h.tip_eq.symm
  have hdepth : n'.chain.undoDepth = n.chain.undoDepth := h'.depth.trans h.depth.symm
  have hstate : n'.state = n.state := h'.state_eq.trans h.state_eq.symm
  obtain ⟨⟨tip, hashes, ⟨blocks⟩, depth⟩, state⟩ := n
  obtain ⟨⟨tip', hashes', ⟨blocks'⟩, depth'⟩, state'⟩ := n'
  cases hhashes
  cases hjournal
  cases htip
  cases hdepth
  cases hstate
  rfl

/-! ## Parents -/

/-- Every block names the hash of the place before it as that of its parent. -/
def Chained (o : Origin) : List Milestone → Prop
  | [] => True
  | m :: branch => m.block.parent = (top o branch).tip.hash ∧ Chained o branch

theorem chained_run (rules : BlockRules) (o : Origin) (calls : List Call) :
    Chained o (run rules o calls).branch := by
  apply run_induction (P := fun t ↦ Chained o t.branch) trivial
  intro t t' hshift h
  cases hshift with
  | attach sound run =>
    obtain ⟨undo, hcontinued, -⟩ := sound.attach_ok run
    have hparent := (ChainContext.continuedBy_iff.1 hcontinued).2
    rw [sound.tip_eq] at hparent
    exact ⟨hparent, h⟩
  | undo _ _ => exact h.2

/-! ## The blocks above a height -/

/-- The blocks of a branch above a height, oldest first. -/
def above (branch : List Milestone) (height : UInt64) : List BlockInput :=
  (branch.map Milestone.block).reverse.filter fun b ↦ height < b.height

theorem above_cons (h : height.toNat < m.block.height.toNat) :
    above (m :: branch) height = above branch height ++ [m.block] := by
  have hlt : height < m.block.height := UInt64.lt_iff_toNat_lt.2 h
  simp [above, hlt]

theorem Linked.above_eq_nil (h : Linked rules o branch)
    (htop : (top o branch).tip.height.toNat ≤ height.toNat) : above branch height = [] := by
  apply List.filter_eq_nil_iff.2
  intro b hb
  obtain ⟨m, hm, rfl⟩ := List.mem_map.1 (List.mem_reverse.1 hb)
  have hle := h.height_le (List.mem_append_left _ (List.mem_map_of_mem hm))
  have hnot : ¬ height < m.block.height := by
    rw [UInt64.lt_iff_toNat_lt]
    exact Nat.not_lt_of_le (Nat.le_trans hle htop)
  simpa using hnot

/-- The blocks above a height go back to the place at that height. -/
theorem Linked.ancestor_above (h : Linked rules o branch) (hchained : Chained o branch)
    (htop : height.toNat ≤ (top o branch).tip.height.toNat) :
    ChainUpdate.ancestor ⟨(top o branch).tip.hash, true, above branch height⟩ =
      (top o (upTo branch height)).tip.hash := by
  induction branch with
  | nil => rfl
  | cons m branch ih =>
    by_cases hheight : height.toNat = m.block.height.toNat
    · rw [h.above_eq_nil (Nat.le_of_eq hheight.symm), h.upTo_eq_self (Nat.le_of_eq hheight.symm)]
      rfl
    · have hsucc := h.height_succ
      change height.toNat ≤ m.block.height.toNat at htop
      rw [above_cons (by omega), upTo_cons (by omega), ChainUpdate.ancestor_concat, hchained.1]
      exact ih h.rest hchained.2 (by omega)

/-- Blocks that were taken back can be attached again, and lead to the branch that they came
from. -/
theorem Sound.reattach (h : (Trail.mk n (upTo branch height) peak).Sound rules o)
    (hlinked : Linked rules o branch) (hchained : Chained o branch)
    (hpeak : (top o branch).tip.height.toNat ≤ peak) :
    ∃ n', (above branch height).forM (Node.attach rules) n = .ok () n' ∧
      Shifts rules o ⟨n, upTo branch height, peak⟩ ⟨n', branch, peak⟩ := by
  induction branch with
  | nil => exact ⟨n, rfl, .refl⟩
  | cons m branch ih =>
    change m.block.height.toNat ≤ peak at hpeak
    by_cases hheight : m.block.height.toNat ≤ height.toNat
    · rw [hlinked.above_eq_nil hheight, hlinked.upTo_eq_self hheight]
      exact ⟨n, rfl, .refl⟩
    · rw [Linked.upTo_cons (by omega)] at h ⊢
      rw [above_cons (by omega)]
      have hsucc := hlinked.height_succ
      obtain ⟨n₁, hrun, hshifts⟩ := ih h hlinked.rest hchained.2 (by omega)
      have hsound := hshifts.sound h
      have hplace : n₁.place = top o branch := hsound.here
      cases hlinked with
      | @cons _ _ undo continues processed rest =>
        rw [← hplace] at continues processed
        have hcontinued : n₁.chain.continuedBy m.block = true := by
          apply ChainContext.continuedBy_iff.2
          refine ⟨continues, ?_⟩
          rw [hchained.1, ← hplace]
          rfl
        have hattach := hsound.attach_eq_ok hcontinued processed
        have hlast : Shift rules o ⟨n₁, branch, peak⟩ _ := .attach hsound hattach
        rw [ChainContext.advanced_tip, Nat.max_eq_left hpeak] at hlast
        refine ⟨_, ?_, hshifts.tail hlast⟩
        rw [forM_append_of_ok hrun]
        exact (congrFun bind_pure_unit n₁).trans hattach

/-! ## Replacing a branch by itself -/

theorem Sound.applyUpdate_above (h : t.Sound rules o) (htrimmed : t.Trimmed rules o)
    (hchained : Chained o t.branch) (hlow : t.low o ≤ height.toNat)
    (htop : height.toNat ≤ t.node.chain.tip.height.toNat)
    (hnewest : ∀ hash, t.node.chain.hashes.get? height = some hash →
      ∀ k, height.toNat < k.toNat → t.node.chain.hashes.get? k ≠ some hash) :
    Node.applyUpdate rules ⟨t.node.chain.tip.hash, true, above t.branch height⟩ t.node =
      .ok () t.node := by
  have horigin : o.height.toNat ≤ height.toNat := Nat.le_trans (origin_le_low t) hlow
  have htop' : height.toNat ≤ (top o t.branch).tip.height.toNat := h.tip_eq ▸ htop
  obtain ⟨hheight, hplace⟩ := h.linked.top_upTo horigin htop'
  have hancestor := h.linked.ancestor_above hchained htop'
  rw [← h.tip_eq] at hancestor
  generalize hp : top o (upTo t.branch height) = p at hheight hplace hancestor
  have hhash : t.node.chain.hashes.get? height = some p.tip.hash :=
    (h.hashes height _).2 ⟨hlow, p, hplace, by rw [← hheight]⟩
  have hfound : t.ancestor? o p.tip.hash = some height := by
    rw [← h.heightOf?_eq]
    exact ChainContext.heightOf?_eq_some hhash (hnewest _ hhash)
  obtain ⟨n₁, -, hback, hdown⟩ := rollbackToHash_ok h hfound
  obtain ⟨n₂, hforth, hup⟩ := (hdown.sound h).reattach h.linked hchained
    (h.tip_eq ▸ h.le_peak)
  have hround : Shifts rules o t ⟨n₂, t.branch, t.peak⟩ := hdown.trans hup
  have hsame : n₂ = t.node := h.node_eq htrimmed (hround.sound h)
    (hround.keeps (fun _ _ ↦ Trimmed.shift) htrimmed)
  rw [Node.applyUpdate_of_reorg rules t.node rfl, hancestor, bind_of_ok hback, ← hsame]
  exact hforth

/-- After any calls, a reorganisation that replaces the blocks above a height by themselves succeeds
and changes nothing, neither the state of the game nor anything that the node keeps. The height
must be one that can be gone back to, and no newer block that is kept may have its hash. -/
theorem run_redo {calls : List Call} (hlow : (run rules o calls).node.chain.horizon ≤ height)
    (htop : height ≤ (run rules o calls).node.chain.tip.height)
    (hnewest : ∀ hash k, height < k →
      (run rules o calls).node.chain.hashes.get? height = some hash →
      (run rules o calls).node.chain.hashes.get? k ≠ some hash) :
    Node.applyUpdate rules
        { bestHash := (run rules o calls).node.chain.tip.hash
          reorg := true
          blocks := (run rules o calls).blocks.filter fun b ↦ height < b.height }
        (run rules o calls).node = .ok () (run rules o calls).node := by
  have h := sound_run rules o calls
  rw [UInt64.le_iff_toNat_le, h.horizon] at hlow
  rw [UInt64.le_iff_toNat_le] at htop
  refine h.applyUpdate_above (trimmed_run rules o calls) (chained_run rules o calls) hlow htop ?_
  intro hash hget k hk
  exact hnewest hash k (UInt64.lt_iff_toNat_lt.2 hk) hget

/-- After the life of a character its last two blocks are taken back and attached again. -/
theorem run_redo_sample :
    let n := (run (Sample.seven 10) Sample.origin Sample.direct).node
    n.chain.horizon ≤ 1 ∧ n.chain.hashes.get? 1 = some ⟨"a"⟩ ∧
      Node.applyUpdate (Sample.seven 10) ⟨⟨"c"⟩, true, Sample.life.drop 1⟩ n = .ok () n := by
  intro n
  have hhashes : n.chain.hashes.entries =
      [(0, ⟨"genesis"⟩), (1, ⟨"a"⟩), (2, ⟨"b"⟩), (3, ⟨"c"⟩)] := by decide +kernel
  have hhorizon : n.chain.horizon ≤ 1 := by decide +kernel
  have htop : 1 ≤ n.chain.tip.height := by decide +kernel
  have hhash : n.chain.hashes.get? 1 = some ⟨"a"⟩ := by decide +kernel
  have hnewest : ∀ hash k, 1 < k → n.chain.hashes.get? 1 = some hash →
      n.chain.hashes.get? k ≠ some hash := by
    intro hash k hk hget hagain
    rw [hhash] at hget
    cases hget
    rw [Table.get?_eq_some_iff, hhashes] at hagain
    have hone : k = 1 := by simpa using hagain
    subst hone
    exact absurd hk (by decide)
  have hredo := run_redo hhorizon htop hnewest
  have htip : n.chain.tip.hash = ⟨"c"⟩ := by decide +kernel
  have hblocks : (run (Sample.seven 10) Sample.origin Sample.direct).blocks.filter
      (fun b ↦ 1 < b.height) = Sample.life.drop 1 := by decide +kernel
  rw [hblocks] at hredo
  exact ⟨hhorizon, hhash, htip ▸ hredo⟩

end Trail

end MiningGame
