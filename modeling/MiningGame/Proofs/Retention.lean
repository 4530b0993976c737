import MiningGame.Chain

/-!
# What is kept

The journal and the table of hashes under the operations of a chain: when a record can be added and
taken out, and what is left after old entries were dropped. Hashes are kept from the horizon on,
undo records from the block above it.
-/

namespace MiningGame

namespace UndoJournal

variable {j : UndoJournal} {height : UInt64} {undo : BlockUndo}

theorem record_eq_ok (h : ∀ k ∈ j.blocks.keys, k.toNat < undo.height.toNat) :
    j.record undo = .ok ⟨j.blocks.insert undo.height undo⟩ := by
  have hfresh : j.blocks.contains undo.height = false := by
    unfold Table.contains
    cases hget : j.blocks.get? undo.height with
    | none => rfl
    | some old =>
      have hlt := h undo.height (Table.mem_keys_iff.2 ⟨old, hget⟩)
      omega
  unfold record latest?
  rw [hfresh]
  cases hlast : j.blocks.lastKey? with
  | none => rfl
  | some latest =>
    have hlt := h latest (Table.mem_keys_of_lastKey? hlast)
    have hge : ¬ undo.height < latest := by
      rw [UInt64.lt_iff_toNat_lt]
      omega
    simp only [Bool.false_eq_true, if_false, hge]

theorem take_eq_ok (found : j.blocks.get? height = some undo)
    (newest : ∀ k ∈ j.blocks.keys, k.toNat ≤ height.toNat) :
    j.take height = .ok (undo, ⟨j.blocks.erase height⟩) := by
  have hlast : j.latest? = some height :=
    Table.lastKey?_eq_some (Table.mem_keys_iff.2 ⟨undo, found⟩) newest
  unfold take
  rw [hlast]
  simp only [ne_eq, not_true_eq_false, if_false, found]

theorem undo_eq_ok {σ : Type} {revert : Reverter σ} {s s' : σ}
    (found : j.blocks.get? height = some undo)
    (newest : ∀ k ∈ j.blocks.keys, k.toNat ≤ height.toNat)
    (back : undo.revertOn revert s = .ok () s') :
    UndoJournal.undo revert height (j, s) = .ok () (⟨j.blocks.erase height⟩, s') := by
  unfold UndoJournal.undo
  simp only [take_eq_ok found newest, back]

end UndoJournal

namespace ChainContext

variable {c : ChainContext} {k : UInt64}

@[simp] theorem pruned_tip (c : ChainContext) : c.pruned.tip = c.tip := by
  unfold pruned
  split <;> rfl

theorem continuedBy_iff {b : BlockInput} : c.continuedBy b = true ↔
    Word.add? c.tip.height 1 = some b.height ∧ b.parent = c.tip.hash := by
  simp [continuedBy]

@[simp] theorem pruned_undoDepth (c : ChainContext) : c.pruned.undoDepth = c.undoDepth := by
  unfold pruned
  split <;> rfl

theorem advanced_tip (c : ChainContext) (b : BlockInput) (journal : UndoJournal) :
    (c.advanced b journal).tip = ⟨b.height, b.hash⟩ := pruned_tip _

theorem get?_hashes_pruned {hash : BlockHash} : c.pruned.hashes.get? k = some hash ↔
    c.hashes.get? k = some hash ∧ c.tip.height.toNat - c.undoDepth.toNat ≤ k.toNat := by
  unfold pruned
  split
  · next hnone =>
    have hlt := Word.sub?_eq_none_iff.1 hnone
    constructor
    · intro h
      exact ⟨h, by omega⟩
    · exact And.left
  · next horizon hsome =>
    have hdiff := Word.sub?_eq_some_iff.1 hsome
    have hle : horizon ≤ k ↔ c.tip.height.toNat - c.undoDepth.toNat ≤ k.toNat := by
      rw [UInt64.le_iff_toNat_le]
      omega
    simp only [Table.get?_filter, Option.filter_eq_some_iff, decide_eq_true_eq, hle]

theorem get?_journal_of_pruned {undo : BlockUndo}
    (h : c.pruned.journal.blocks.get? k = some undo) : c.journal.blocks.get? k = some undo := by
  unfold pruned at h
  split at h
  · exact h
  · simp only [UndoJournal.prune, Table.get?_filter, Option.filter_eq_some_iff] at h
    exact h.1

/-- Records are kept from the block above the horizon on. No height lies above the greatest one, so
a record of that height is always kept. -/
theorem get?_journal_pruned_iff {undo : BlockUndo} (hk : 0 < k.toNat) :
    c.pruned.journal.blocks.get? k = some undo ↔ c.journal.blocks.get? k = some undo ∧
      (c.tip.height.toNat - c.undoDepth.toNat < k.toNat ∨ k = Word.largest) := by
  unfold pruned
  split
  · next hnone =>
    have hlt := Word.sub?_eq_none_iff.1 hnone
    exact ⟨fun h ↦ ⟨h, .inl (by omega)⟩, And.left⟩
  · next horizon hsome =>
    have hdiff := Word.sub?_eq_some_iff.1 hsome
    have hkept : Word.addCapped horizon 1 ≤ k ↔
        c.tip.height.toNat - c.undoDepth.toNat < k.toNat ∨ k = Word.largest := by
      rw [Word.addCapped_one_le_iff]
      exact or_congr_left (by omega)
    simp only [UndoJournal.prune, Table.get?_filter, Option.filter_eq_some_iff,
      decide_eq_true_eq, hkept]

theorem horizon_eq (hk : k ∈ c.hashes.keys) (hleast : ∀ k' ∈ c.hashes.keys, k.toNat ≤ k'.toNat) :
    c.horizon = k := by
  unfold horizon
  rw [Table.firstKey?_eq_some hk hleast]
  rfl

/-- Of the blocks of one hash the newest is found. -/
theorem heightOf?_eq_some {hash : BlockHash} (hget : c.hashes.get? k = some hash)
    (hnewest : ∀ k', k.toNat < k'.toNat → c.hashes.get? k' ≠ some hash) :
    c.heightOf? hash = some k := by
  have hmem : (k, hash) ∈ c.hashes.entries.reverse :=
    List.mem_reverse.2 (Table.get?_eq_some_iff.1 hget)
  obtain ⟨newer, older, hsplit⟩ := List.append_of_mem hmem
  have hdescending : (newer ++ (k, hash) :: older).Pairwise fun a b ↦ rank b.1 < rank a.1 :=
    hsplit ▸ List.pairwise_reverse.2 c.hashes.ascending
  have hfind : c.hashes.entries.reverse.find? (fun e ↦ e.2 = hash) = some (k, hash) := by
    apply List.find?_eq_some_iff_append.2
    refine ⟨decide_eq_true rfl, newer, older, hsplit, ?_⟩
    rintro ⟨k', hash'⟩ he
    have hlt := (List.pairwise_append.1 hdescending).2.2 _ he (k, hash) List.mem_cons_self
    have hold : c.hashes.get? k' = some hash' := by
      apply Table.get?_eq_some_iff.2
      rw [← List.mem_reverse, hsplit]
      exact List.mem_append_left _ he
    have hne : hash' ≠ hash := fun heq ↦ hnewest k' hlt (heq ▸ hold)
    simpa using hne
  rw [heightOf?, hfind, Option.map_some]

end ChainContext

end MiningGame
