import Mathlib.Logic.Relation
import MiningGame.Proofs.Steps

/-!
# Shifts of the tip

Whatever a call does, it does by shifts: a block is put on top of the branch, or the tip is taken
back, never below the lowest place that may be gone back to. So what a single shift keeps holds in
every run (`Trail.run_induction`), and what a node keeps of its branch is the first such property
(`Trail.sound_run`).
-/

namespace MiningGame

theorem Node.applyUpdate_of_continuation (rules : BlockRules) (n : Node) {u : ChainUpdate}
    (h : u.reorg = false) :
    Node.applyUpdate rules u n = u.blocks.forM (Node.attach rules) n := by
  unfold Node.applyUpdate
  rw [h]
  rfl

theorem Node.applyUpdate_of_reorg (rules : BlockRules) (n : Node) {u : ChainUpdate}
    (h : u.reorg = true) : Node.applyUpdate rules u n =
      (Node.rollbackToHash u.ancestor >>= fun _ ↦ u.blocks.forM (Node.attach rules)) n := by
  unfold Node.applyUpdate
  rw [h]
  rfl

namespace Trail

variable {rules : BlockRules} {o : Origin} {t t' : Trail} {n : Node} {branch : List Milestone}
  {peak : Nat}

/-- The tip of a node moves by one block. -/
inductive Shift (rules : BlockRules) (o : Origin) : Trail → Trail → Prop
  | attach {n n' : Node} {branch : List Milestone} {peak : Nat} {b : BlockInput}
      (sound : (Trail.mk n branch peak).Sound rules o) (run : Node.attach rules b n = .ok () n') :
      Shift rules o ⟨n, branch, peak⟩
        ⟨n', ⟨b, n'.state⟩ :: branch, max peak n'.chain.tip.height.toNat⟩
  | undo {n : Node} {m : Milestone} {branch : List Milestone} {peak : Nat}
      (sound : (Trail.mk n (m :: branch) peak).Sound rules o)
      (above : (Trail.mk n (m :: branch) peak).low o < m.block.height.toNat) :
      Shift rules o ⟨n, m :: branch, peak⟩ ⟨withoutTip n (top o branch), branch, peak⟩

/-- The tip of a node moves by any number of blocks. -/
abbrev Shifts (rules : BlockRules) (o : Origin) : Trail → Trail → Prop :=
  Relation.ReflTransGen (Shift rules o)

theorem Shift.sound_after (h : Shift rules o t t') : t'.Sound rules o := by
  cases h with
  | attach sound run => exact sound.attach run
  | undo sound above => exact sound.undoTip above

theorem Shifts.sound (h : Shifts rules o t t') (ht : t.Sound rules o) : t'.Sound rules o := by
  cases h with
  | refl => exact ht
  | tail _ last => exact last.sound_after

/-- What every shift keeps is kept by any number of them. -/
theorem Shifts.keeps {P : Trail → Prop} (hP : ∀ t t', Shift rules o t t' → P t → P t')
    (h : Shifts rules o t t') (ht : P t) : P t' := by
  induction h with
  | refl => exact ht
  | tail _ last ih => exact hP _ _ last ih

namespace Sound

/-! ## Taking blocks back -/

/-- Blocks can be taken back down to every height that may be gone back to. -/
theorem undoTips {height : UInt64} (h : (Trail.mk n branch peak).Sound rules o)
    (hlow : (Trail.mk n branch peak).low o ≤ height.toNat)
    (htop : height.toNat ≤ (top o branch).tip.height.toNat) :
    ∃ n', Node.undoTips ((top o branch).tip.height.toNat - height.toNat) n = .ok () n' ∧
      Shifts rules o ⟨n, branch, peak⟩ ⟨n', upTo branch height, peak⟩ := by
  induction branch generalizing n with
  | nil =>
    have horigin := origin_le_low (o := o) (Trail.mk n [] peak)
    change height.toNat ≤ o.height.toNat at htop
    change ∃ n', Node.undoTips (o.height.toNat - height.toNat) n = _ ∧ _
    rw [Nat.sub_eq_zero_of_le (by omega)]
    exact ⟨n, rfl, .refl⟩
  | cons m branch ih =>
    change height.toNat ≤ m.block.height.toNat at htop
    change ∃ n', Node.undoTips (m.block.height.toNat - height.toNat) n = _ ∧ _
    by_cases hheight : height.toNat = m.block.height.toNat
    · rw [hheight, Nat.sub_self, h.linked.upTo_eq_self (Nat.le_of_eq hheight.symm)]
      exact ⟨n, rfl, .refl⟩
    · have hsucc := h.linked.height_succ
      have hcount : m.block.height.toNat - height.toNat =
          ((top o branch).tip.height.toNat - height.toNat) + 1 := by omega
      have habove : (Trail.mk n (m :: branch) peak).low o < m.block.height.toNat := by omega
      obtain ⟨n', hrest, hshifts⟩ := ih (h.undoTip habove) hlow (by omega)
      rw [hcount, Linked.upTo_cons (by omega)]
      refine ⟨n', ?_, .head (.undo h habove) hshifts⟩
      unfold Node.undoTips
      exact (bind_of_ok (h.undoTip_eq habove)).trans hrest

theorem rollbackTo_ok {height : UInt64} (h : (Trail.mk n branch peak).Sound rules o)
    (hlow : (Trail.mk n branch peak).low o ≤ height.toNat)
    (htop : height.toNat ≤ n.chain.tip.height.toNat) :
    ∃ n', Node.rollbackTo height n = .ok () n' ∧
      Shifts rules o ⟨n, branch, peak⟩ ⟨n', upTo branch height, peak⟩ := by
  have htip : n.chain.tip = (top o branch).tip := h.tip_eq
  obtain ⟨n', hrun, hshifts⟩ := h.undoTips hlow (htip ▸ htop)
  have hforward : ¬ n.chain.tip.height < height := by
    rw [UInt64.lt_iff_toNat_lt]
    omega
  have hdeep : ¬ height < n.chain.horizon := by
    have hhorizon : n.chain.horizon.toNat = _ := h.horizon
    rw [UInt64.lt_iff_toNat_lt, hhorizon]
    omega
  refine ⟨n', ?_, hshifts⟩
  rw [← htip] at hrun
  unfold Node.rollbackTo
  rw [bind_of_ok (t := Node.Following.chain) rfl, if_neg hforward, if_neg hdeep]
  exact hrun

theorem rollbackTo_error {height : UInt64} (h : (Trail.mk n branch peak).Sound rules o)
    (hout : ¬ ((Trail.mk n branch peak).low o ≤ height.toNat ∧
      height.toNat ≤ n.chain.tip.height.toNat)) :
    ∃ e, Node.rollbackTo height n = .error e n := by
  unfold Node.rollbackTo
  rw [bind_of_ok (t := Node.Following.chain) rfl]
  by_cases hforward : n.chain.tip.height < height
  · rw [if_pos hforward]
    exact ⟨_, rfl⟩
  · have hdeep : height < n.chain.horizon := by
      have hhorizon : n.chain.horizon.toNat = _ := h.horizon
      rw [UInt64.lt_iff_toNat_lt] at hforward ⊢
      rw [hhorizon]
      omega
    rw [if_neg hforward, if_pos hdeep]
    exact ⟨_, rfl⟩

/-! ## Ancestors -/

/-- The hashes that are kept, newest first, are those of the places that may be gone back to. -/
theorem hashes_entries (h : t.Sound rules o) :
    t.node.chain.hashes.entries.reverse =
      ((places o t.branch).filter fun p ↦ t.low o ≤ p.tip.height.toNat).map
        fun p ↦ (p.tip.height, p.tip.hash) := by
  refine List.reverse_eq_iff.2 (Table.eq_of_mem_iff t.node.chain.hashes.ascending ?_ ?_)
  · exact List.pairwise_reverse.2 (List.pairwise_map.2 (h.linked.descending.filter _))
  · rintro ⟨k, hash⟩
    rw [← Table.get?_eq_some_iff, h.hashes]
    simp only [List.mem_reverse, List.mem_map, List.mem_filter, decide_eq_true_eq]
    constructor
    · rintro ⟨hlow, p, hp, hplace⟩
      exact ⟨p, ⟨hp, by rw [hplace]; exact hlow⟩, by rw [hplace]⟩
    · rintro ⟨p, ⟨hp, hlow⟩, hentry⟩
      obtain ⟨rfl, rfl⟩ := Prod.mk.inj hentry
      exact ⟨hlow, p, hp, rfl⟩

/-- The node finds the ancestor of a reorganisation on the surviving branch. -/
theorem heightOf?_eq (h : t.Sound rules o) (hash : BlockHash) :
    t.node.chain.heightOf? hash = t.ancestor? o hash := by
  unfold ChainContext.heightOf? ancestor?
  rw [h.hashes_entries, List.find?_map, List.find?_filter, Option.map_map]
  simp [Function.comp_def]

theorem ancestor?_window {hash : BlockHash} {height : UInt64} (h : t.Sound rules o)
    (hancestor : t.ancestor? o hash = some height) :
    t.low o ≤ height.toNat ∧ height.toNat ≤ t.node.chain.tip.height.toNat := by
  obtain ⟨p, hfind, rfl⟩ := Option.map_eq_some_iff.1 hancestor
  have hmatch : t.low o ≤ p.tip.height.toNat ∧ p.tip.hash = hash := by
    simpa using List.find?_some hfind
  have hle := h.linked.height_le (List.mem_of_find?_eq_some hfind)
  rw [h.tip_eq]
  exact ⟨hmatch.1, hle⟩

/-- The node goes back to an ancestor that it finds. -/
theorem rollbackToHash_ok {hash : BlockHash} {height : UInt64}
    (h : (Trail.mk n branch peak).Sound rules o)
    (hancestor : (Trail.mk n branch peak).ancestor? o hash = some height) :
    ∃ n', Node.rollbackTo height n = .ok () n' ∧ Node.rollbackToHash hash n = .ok () n' ∧
      Shifts rules o ⟨n, branch, peak⟩ ⟨n', upTo branch height, peak⟩ := by
  obtain ⟨hlow, htop⟩ := h.ancestor?_window hancestor
  obtain ⟨n', hback, hshifts⟩ := h.rollbackTo_ok hlow htop
  have hfound : n.chain.heightOf? hash = some height := (h.heightOf?_eq hash).trans hancestor
  refine ⟨n', hback, ?_, hshifts⟩
  unfold Node.rollbackToHash
  rw [bind_of_ok (t := Node.Following.chain) rfl, hfound]
  exact hback

theorem rollbackToHash_error {hash : BlockHash} (h : t.Sound rules o)
    (hancestor : t.ancestor? o hash = none) :
    ∃ e, Node.rollbackToHash hash t.node = .error e t.node := by
  unfold Node.rollbackToHash
  rw [bind_of_ok (t := Node.Following.chain) rfl, h.heightOf?_eq, hancestor]
  exact ⟨_, rfl⟩

/-! ## Calls -/

/-- A call that leaves node and branch alone leaves the greatest tip height alone. -/
theorem shifts_self (h : t.Sound rules o) :
    Shifts rules o t ⟨t.node, t.branch, max t.peak t.node.chain.tip.height.toNat⟩ := by
  rw [Nat.max_eq_left h.le_peak]

/-- Attaching blocks never lowers the tip. -/
theorem tip_le_ending (blocks : List BlockInput) (h : (Trail.mk n branch peak).Sound rules o) :
    n.chain.tip.height.toNat ≤
      (ending (blocks.forM (Node.attach rules) n)).chain.tip.height.toNat := by
  induction blocks generalizing n branch peak with
  | nil => exact Nat.le_refl _
  | cons b rest ih =>
    cases hrun : Node.attach rules b n with
    | ok _ n' =>
      have hforM : (b :: rest).forM (Node.attach rules) n = rest.forM (Node.attach rules) n' :=
        bind_of_ok hrun
      have hsucc := h.attach_height hrun
      have hrest := ih (h.attach hrun)
      rw [hforM]
      omega
    | error e n' =>
      obtain rfl := h.attach_error hrun
      have hforM : (b :: rest).forM (Node.attach rules) n' = .error e n' := bind_of_error hrun
      rw [hforM]
      exact Nat.le_refl _

/-- Attaching blocks one after the other extends the branch. -/
theorem shifts_extended (blocks : List BlockInput) (h : (Trail.mk n branch peak).Sound rules o) :
    Shifts rules o ⟨n, branch, peak⟩
      ⟨ending (blocks.forM (Node.attach rules) n), extended rules n branch blocks,
        max peak (ending (blocks.forM (Node.attach rules) n)).chain.tip.height.toNat⟩ := by
  induction blocks generalizing n branch peak with
  | nil => exact h.shifts_self
  | cons b rest ih =>
    cases hrun : Node.attach rules b n with
    | ok _ n' =>
      have hforM : (b :: rest).forM (Node.attach rules) n = rest.forM (Node.attach rules) n' :=
        bind_of_ok hrun
      have hbranch : extended rules n branch (b :: rest) =
          extended rules n' (⟨b, n'.state⟩ :: branch) rest := by
        simp only [extended, hrun]
      have hsound := h.attach hrun
      have hrest := ih hsound
      rw [Nat.max_assoc, Nat.max_eq_right (hsound.tip_le_ending rest)] at hrest
      rw [hforM, hbranch]
      exact .head (.attach h hrun) hrest
    | error e n' =>
      obtain rfl := h.attach_error hrun
      have hforM : (b :: rest).forM (Node.attach rules) n' = .error e n' := bind_of_error hrun
      have hbranch : extended rules n' branch (b :: rest) = branch := by
        simp only [extended, hrun]
      rw [hforM, hbranch]
      exact h.shifts_self

theorem shifts_call (h : t.Sound rules o) (c : Call) : Shifts rules o t (t.call rules o c) := by
  cases c with
  | attach b =>
    have hrun : ending (Node.attach rules b t.node) =
        ending ([b].forM (Node.attach rules) t.node) := by
      have hone : [b].forM (Node.attach rules) = Node.attach rules b := bind_pure_unit
      rw [hone]
    simp only [Trail.call, Call.perform, branchAfter, hrun]
    exact h.shifts_extended [b]
  | rollback height =>
    by_cases hwindow : t.low o ≤ height.toNat ∧ height.toNat ≤ t.node.chain.tip.height.toNat
    · obtain ⟨n, hrun, hshifts⟩ := rollbackTo_ok h hwindow.1 hwindow.2
      simp only [Trail.call, Call.perform, branchAfter, hrun, ending]
      exact hshifts.trans (hshifts.sound h).shifts_self
    · obtain ⟨e, hrun⟩ := rollbackTo_error h hwindow
      simp only [Trail.call, Call.perform, branchAfter, hrun, ending]
      exact h.shifts_self
  | update u =>
    cases hreorg : u.reorg with
    | false =>
      have hrun := Node.applyUpdate_of_continuation rules t.node hreorg
      simp only [Trail.call, Call.perform, branchAfter, hreorg, hrun]
      exact h.shifts_extended u.blocks
    | true =>
      have hrun := Node.applyUpdate_of_reorg rules t.node hreorg
      cases hancestor : t.ancestor? o u.ancestor with
      | none =>
        obtain ⟨e, hback⟩ := h.rollbackToHash_error hancestor
        simp only [Trail.call, Call.perform, branchAfter, hreorg, hancestor, hrun,
          bind_of_error hback, ending]
        exact h.shifts_self
      | some height =>
        obtain ⟨n, hback, hfound, hshifts⟩ := rollbackToHash_ok h hancestor
        simp only [Trail.call, Call.perform, branchAfter, hreorg, hancestor, hrun,
          bind_of_ok hfound, hback]
        exact hshifts.trans ((hshifts.sound h).shifts_extended u.blocks)

end Sound

/-! ## Runs -/

theorem shifts_run (rules : BlockRules) (o : Origin) (calls : List Call) :
    Shifts rules o (start o) (run rules o calls) := by
  have hcalls : ∀ t : Trail, t.Sound rules o →
      Shifts rules o t (calls.foldl (Trail.call rules o) t) := by
    induction calls with
    | nil => exact fun t _ ↦ .refl
    | cons c rest ih =>
      intro t h
      have hfirst := h.shifts_call c
      exact hfirst.trans (ih _ (hfirst.sound h))
  exact hcalls _ (sound_start rules o)

theorem sound_run (rules : BlockRules) (o : Origin) (calls : List Call) :
    (run rules o calls).Sound rules o :=
  (shifts_run rules o calls).sound (sound_start rules o)

/-- What holds at the start and is kept by every shift holds after any calls. -/
theorem run_induction {P : Trail → Prop} (hstart : P (start o))
    (hP : ∀ t t', Shift rules o t t' → P t → P t') (calls : List Call) :
    P (run rules o calls) :=
  (shifts_run rules o calls).keeps hP hstart

end Trail

end MiningGame
