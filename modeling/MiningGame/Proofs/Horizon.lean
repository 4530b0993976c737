import MiningGame.Proofs.Runs

/-!
# What the horizon separates

The horizon of a node is the lowest height it can go back to. The node keeps the hashes from there
on and the undo records of the blocks above, so every record it keeps can be used. One record
escapes: no height lies above the greatest one, so a block of that height keeps its record even if
no block may be taken back.
-/

namespace MiningGame

/-- A journal whose heights lie between two bounds holds at most as many records as fit there. -/
theorem UndoJournal.size_le {j : UndoJournal} {low high : Nat}
    (h : ∀ k ∈ j.blocks.keys, low < k.toNat ∧ k.toNat ≤ high) : j.size ≤ high - low := by
  have hnodup : (j.blocks.keys.map UInt64.toNat).Nodup :=
    List.pairwise_map.2 (j.blocks.keys_pairwise.imp Nat.ne_of_lt)
  have hsub : j.blocks.keys.map UInt64.toNat ⊆ List.range' (low + 1) (high - low) := by
    intro n hn
    obtain ⟨k, hk, rfl⟩ := List.mem_map.1 hn
    have hbounds := h k hk
    rw [List.mem_range'_1]
    omega
  have hlength := hnodup.length_le_of_subset hsub
  rw [List.length_range'] at hlength
  simpa [UndoJournal.size, Table.size, Table.keys] using hlength

namespace Trail

variable {rules : BlockRules} {o : Origin} {t t' : Trail} {n : Node} {m : Milestone}
  {branch : List Milestone} {peak : Nat} {k : UInt64}

/-- The journal has the records of the blocks above the lowest place that may be gone back to, and
the record of a block of the greatest height. -/
def Trimmed (rules : BlockRules) (o : Origin) (t : Trail) : Prop :=
  ∀ k undo, t.node.chain.journal.blocks.get? k = some undo ↔
    Recorded rules o t.branch k undo ∧ (t.low o < k.toNat ∨ k = Word.largest)

theorem trimmed_start (rules : BlockRules) (o : Origin) : (start o).Trimmed rules o := by
  intro k undo
  constructor
  · intro h
    cases h
  · rintro ⟨h, -⟩
    cases h

/-- Nothing can be recorded above the greatest height. -/
theorem Linked.eq_of_recorded_largest {undo : BlockUndo} (h : Linked rules o (m :: branch))
    (hrec : Recorded rules o (m :: branch) Word.largest undo) : m.block.height = Word.largest := by
  have hle := (h.recorded_height hrec).2
  have hmax := Word.toNat_le_largest m.block.height
  exact UInt64.toNat_inj.1 (Nat.le_antisymm hmax hle)

theorem Recorded.of_head {undo undo' : BlockUndo} (h : Linked rules o (m :: branch))
    (hrec : Recorded rules o (m :: branch) m.block.height undo)
    (hprocess : processBlock rules m.block (top o branch).state = .ok undo' m.state) :
    undo = undo' := by
  cases hrec with
  | head processed =>
    have hsame := processed.symm.trans hprocess
    cases hsame
    rfl
  | tail below =>
    have hle := (h.rest.recorded_height below).2
    have hsucc := h.height_succ
    omega

theorem Trimmed.attach {b : BlockInput} {n' : Node} (h : (Trail.mk n branch peak).Trimmed rules o)
    (sound : (Trail.mk n branch peak).Sound rules o) (run : Node.attach rules b n = .ok () n') :
    (Trail.mk n' (⟨b, n'.state⟩ :: branch) (max peak n'.chain.tip.height.toNat)).Trimmed
      rules o := by
  obtain ⟨undo, -, hprocess, hchain⟩ := sound.attach_ok run
  have hlinked := (sound.attach run).linked
  have hsucc := sound.attach_height run
  have hlow : (Trail.mk n branch peak).low o ≤ n.chain.tip.height.toNat := sound.low_le
  have hdepth : n.chain.undoDepth = o.undoDepth := sound.depth
  have hstate : n.state = (top o branch).state := sound.state_eq
  have htip : n'.chain.tip.height = b.height := by rw [hchain, ChainContext.advanced_tip]
  rw [htip] at hsucc
  intro k old
  rw [Sound.low_max peak n'.chain.tip.height.toNat n n' branch, hchain, ChainContext.advanced_tip]
  constructor
  · intro hget
    have hrec := sound.recorded_advanced hprocess hget
    have hpos : 0 < k.toNat := Nat.zero_lt_of_lt (hlinked.recorded_height hrec).1
    obtain ⟨hinsert, hdeep⟩ := (ChainContext.get?_journal_pruned_iff hpos).1 hget
    rw [hdepth] at hdeep
    have hold : (Trail.mk n branch peak).low o < k.toNat ∨ k = Word.largest := by
      simp only [Table.get?_insert] at hinsert
      split at hinsert
      · next hk =>
        obtain rfl := rank_injective hk
        exact .inl (by omega)
      · exact ((h k old).1 hinsert).2
    refine ⟨hrec, ?_⟩
    rcases hold with hold | hlast
    · exact hdeep.imp_left fun hdeep ↦ Nat.max_lt.2 ⟨hold, hdeep⟩
    · exact .inr hlast
  · rintro ⟨hrec, hdeep | rfl⟩
    · exact sound.kept_advanced hsucc hprocess hrec hdeep
    · have hheight : b.height = Word.largest := hlinked.eq_of_recorded_largest hrec
      rw [← hheight] at hrec ⊢
      obtain rfl := hrec.of_head hlinked (hstate ▸ hprocess)
      apply (ChainContext.get?_journal_pruned_iff (by omega)).2
      exact ⟨Table.get?_insert_self _ _ _, .inr hheight⟩

theorem Trimmed.undo (h : (Trail.mk n (m :: branch) peak).Trimmed rules o)
    (sound : (Trail.mk n (m :: branch) peak).Sound rules o) :
    (Trail.mk (withoutTip n (top o branch)) branch peak).Trimmed rules o := by
  have htip := sound.tip_height
  intro k old
  change (n.chain.journal.blocks.erase n.chain.tip.height).get? k = some old ↔ _
  rw [Table.get?_erase]
  constructor
  · intro hget
    split at hget
    · cases hget
    · next hk =>
      obtain ⟨hrec, hdeep⟩ := (h k old).1 hget
      rw [htip] at hk
      exact ⟨Linked.recorded_rest hrec (mt rank_inj.2 hk), hdeep⟩
  · rintro ⟨hrec, hdeep⟩
    have hle := (sound.linked.rest.recorded_height hrec).2
    have hsucc := sound.linked.height_succ
    have hne : k ≠ n.chain.tip.height := by
      rintro rfl
      rw [htip] at hle
      omega
    rw [if_neg (mt rank_inj.1 hne)]
    exact (h k old).2 ⟨.tail hrec, hdeep⟩

theorem Trimmed.shift (hshift : Shift rules o t t') (h : t.Trimmed rules o) :
    t'.Trimmed rules o := by
  cases hshift with
  | attach sound run => exact h.attach sound run
  | undo sound _ => exact h.undo sound

theorem trimmed_run (rules : BlockRules) (o : Origin) (calls : List Call) :
    (run rules o calls).Trimmed rules o :=
  run_induction (trimmed_start rules o) (fun _ _ ↦ Trimmed.shift) calls

theorem peak_run_le (rules : BlockRules) (o : Origin) (calls : List Call) :
    (run rules o calls).peak ≤ Word.largest.toNat := by
  apply run_induction (P := fun t ↦ t.peak ≤ Word.largest.toNat)
  · exact Word.toNat_le_largest o.height
  · intro t t' hshift hle
    cases hshift with
    | attach _ _ => exact Nat.max_le.2 ⟨hle, Word.toNat_le_largest _⟩
    | undo _ _ => exact hle

/-! ## Which heights are kept -/

/-- Every height above the origin up to the tip has a record. -/
theorem Linked.exists_recorded_iff (h : Linked rules o branch) :
    (∃ undo, Recorded rules o branch k undo) ↔
      o.height.toNat < k.toNat ∧ k.toNat ≤ (top o branch).tip.height.toNat := by
  constructor
  · rintro ⟨undo, hrec⟩
    exact h.recorded_height hrec
  · rintro ⟨hlow, htop⟩
    induction h with
    | nil => exact absurd hlow (Nat.not_lt_of_le htop)
    | @cons m branch undo continues processed rest ih =>
      have hsucc := Word.add?_eq_some_iff.1 continues
      rw [UInt64.toNat_one] at hsucc
      change k.toNat ≤ m.block.height.toNat at htop
      by_cases hk : k = m.block.height
      · subst hk
        exact ⟨undo, .head processed⟩
      · have hne := mt UInt64.toNat_inj.1 hk
        obtain ⟨old, hold⟩ := ih (by omega)
        exact ⟨old, .tail hold⟩

/-- The tip is at the greatest height, and no block may be taken back. -/
def Spent (o : Origin) (c : ChainContext) : Prop :=
  o.undoDepth = 0 ∧ o.height ≠ Word.largest ∧ c.tip.height = Word.largest

/-- The hashes that are kept are those from the lowest place that may be gone back to, up to the
tip. -/
theorem Sound.mem_hashes_iff (h : t.Sound rules o) : k ∈ t.node.chain.hashes.keys ↔
    t.low o ≤ k.toNat ∧ k.toNat ≤ t.node.chain.tip.height.toNat := by
  rw [Table.mem_keys_iff, h.tip_eq]
  constructor
  · rintro ⟨hash, hget⟩
    obtain ⟨hlow, p, hp, hplace⟩ := (h.hashes k hash).1 hget
    have hle := h.linked.height_le hp
    rw [hplace] at hle
    exact ⟨hlow, hle⟩
  · rintro ⟨hlow, htop⟩
    obtain ⟨hheight, hplace⟩ := h.linked.top_upTo (Nat.le_trans (origin_le_low t) hlow) htop
    generalize top o (upTo t.branch k) = p at hheight hplace
    exact ⟨p.tip.hash, (h.hashes k _).2 ⟨hlow, p, hplace, by rw [← hheight]⟩⟩

/-- No other place of a branch has the height of a place. -/
theorem Linked.find?_place {p : Place} (h : Linked rules o branch) (hp : p ∈ places o branch) :
    (places o branch).find? (fun q ↦ q.tip.height = p.tip.height) = some p := by
  induction branch with
  | nil =>
    obtain rfl := List.mem_singleton.1 hp
    exact List.find?_cons_of_pos (decide_eq_true rfl)
  | cons m branch ih =>
    rcases mem_places_cons.1 hp with rfl | hp
    · exact List.find?_cons_of_pos (decide_eq_true rfl)
    · have hlt := h.height_lt hp
      have hne : m.place.tip.height ≠ p.tip.height := fun heq ↦
        Nat.ne_of_gt hlt (congrArg UInt64.toNat heq)
      rw [← ih h.rest hp]
      exact List.find?_cons_of_neg (mt of_decide_eq_true hne)

/-- A hash that is kept is that of the place of the surviving branch at its height. -/
theorem Sound.placeAt?_of_hash {hash : BlockHash} (h : t.Sound rules o)
    (hget : t.node.chain.hashes.get? k = some hash) :
    (t.placeAt? o k).map (fun p ↦ p.tip) = some ⟨k, hash⟩ := by
  obtain ⟨-, p, hp, hplace⟩ := (h.hashes k hash).1 hget
  have hfind := h.linked.find?_place hp
  rw [hplace] at hfind
  rw [placeAt?, hfind, Option.map_some, hplace]

theorem Sound.mem_journal_iff (h : t.Sound rules o) (htrimmed : t.Trimmed rules o)
    (hpeak : t.peak ≤ Word.largest.toNat) : k ∈ t.node.chain.journal.blocks.keys ↔
      t.low o < k.toNat ∧ k.toNat ≤ t.node.chain.tip.height.toNat ∨
        k = Word.largest ∧ Spent o t.node.chain := by
  have hkeys : k ∈ t.node.chain.journal.blocks.keys ↔
      (o.height.toNat < k.toNat ∧ k.toNat ≤ t.node.chain.tip.height.toNat) ∧
        (t.low o < k.toNat ∨ k = Word.largest) := by
    rw [Table.mem_keys_iff, h.tip_eq, ← h.linked.exists_recorded_iff]
    simp only [htrimmed k, exists_and_right]
  have horigin := origin_le_low (o := o) t
  have hlow : t.low o = max o.height.toNat (t.peak - o.undoDepth.toNat) := rfl
  have htop := Word.toNat_le_largest t.node.chain.tip.height
  rw [hkeys]
  unfold Spent
  simp only [← UInt64.toNat_inj, UInt64.toNat_zero, ne_eq]
  have hle := h.low_le
  have hpk := h.le_peak
  omega

/-- Going back to the place before a block uses its record. -/
theorem Sound.exists_rollback (h : t.Sound rules o) (htrimmed : t.Trimmed rules o)
    (hlow : t.low o < k.toNat) (htop : k.toNat ≤ t.node.chain.tip.height.toNat) :
    ∃ height n, Node.rollbackTo height t.node = .ok () n ∧
      k ∉ n.chain.journal.blocks.keys := by
  obtain ⟨height, hheight⟩ := Word.exists_sub? (a := k) (b := 1) (Nat.succ_le_of_lt (by omega))
  have hsucc := Word.sub?_eq_some_iff.1 hheight
  rw [UInt64.toNat_one] at hsucc
  have hwindow : t.low o ≤ height.toNat ∧ height.toNat ≤ t.node.chain.tip.height.toNat := by omega
  obtain ⟨n, hrun, hshifts⟩ := rollbackTo_ok h hwindow.1 hwindow.2
  refine ⟨height, n, hrun, fun hk ↦ ?_⟩
  obtain ⟨undo, hget⟩ := Table.mem_keys_iff.1 hk
  have hafter := hshifts.keeps (fun _ _ ↦ Trimmed.shift) htrimmed
  have hrec := ((hafter k undo).1 hget).1
  have hle := ((hshifts.sound h).linked.recorded_height hrec).2
  have horigin := origin_le_low (o := o) t
  rw [(h.linked.top_upTo (by omega) (h.tip_eq ▸ hwindow.2)).1] at hle
  omega

/-- At every point of a run the node keeps the hashes of the surviving branch from the horizon to
the tip and the undo records of the heights above the horizon, so at most as many as the undo depth
says, and each of them can still be used. Only a block of the greatest height keeps its record
although no block may be taken back. -/
theorem run_retention (rules : BlockRules) (o : Origin) (calls : List Call) :
    let t := run rules o calls
    let c := t.node.chain
    (∀ k, k ∈ c.hashes.keys ↔ c.horizon ≤ k ∧ k ≤ c.tip.height) ∧
      (∀ k hash, c.hashes.get? k = some hash →
        (t.placeAt? o k).map (fun p ↦ p.tip) = some ⟨k, hash⟩) ∧
      (∀ k, k ∈ c.journal.blocks.keys ↔
        c.horizon < k ∧ k ≤ c.tip.height ∨ k = Word.largest ∧ Spent o c) ∧
      (¬ Spent o c → c.journal.size ≤ o.undoDepth.toNat ∧
        ∀ k ∈ c.journal.blocks.keys, ∃ height n, Node.rollbackTo height t.node = .ok () n ∧
          k ∉ n.chain.journal.blocks.keys) := by
  intro t c
  have h : t.Sound rules o := sound_run rules o calls
  have htrimmed : t.Trimmed rules o := trimmed_run rules o calls
  have hkeys : ∀ k, k ∈ c.journal.blocks.keys ↔ _ := fun k ↦
    h.mem_journal_iff htrimmed (peak_run_le rules o calls)
  have hhorizon : c.horizon.toNat = _ := h.horizon
  simp only [UInt64.le_iff_toNat_le, UInt64.lt_iff_toNat_lt, hhorizon]
  refine ⟨fun k ↦ h.mem_hashes_iff, fun k hash ↦ h.placeAt?_of_hash, hkeys, fun hspent ↦ ?_⟩
  have hbounds : ∀ k ∈ c.journal.blocks.keys,
      t.low o < k.toNat ∧ k.toNat ≤ c.tip.height.toNat := fun k hk ↦
    ((hkeys k).1 hk).resolve_right fun hlast ↦ hspent hlast.2
  constructor
  · have hsize := UndoJournal.size_le hbounds
    have hpeak : c.tip.height.toNat ≤ t.peak := h.le_peak
    have hlow : t.low o = max o.height.toNat (t.peak - o.undoDepth.toNat) := rfl
    omega
  · intro k hk
    obtain ⟨hlow, htop⟩ := hbounds k hk
    exact h.exists_rollback htrimmed hlow htop

/-- With undo depth zero the node keeps the record of a block of the greatest height, although its
horizon is the tip. -/
theorem record_beyond_depth :
    let o : Origin := ⟨⟨10, by decide, by decide⟩, 18446744073709551614, ⟨"genesis"⟩, 0⟩
    let c := (run ⟨1, fun _ _ ↦ none, .walk⟩ o
      [.attach ⟨Word.largest, ⟨"a"⟩, ⟨"genesis"⟩, [], []⟩]).node.chain
    c.undoDepth = 0 ∧ c.horizon = c.tip.height ∧ c.journal.blocks.keys = [c.tip.height] := by
  decide +kernel

end Trail

end MiningGame
