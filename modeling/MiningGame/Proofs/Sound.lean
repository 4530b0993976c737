import MiningGame.Proofs.Branch
import MiningGame.Proofs.Retention

/-!
# What holds along a run

The node of a run stands on top of the surviving branch, keeps the hashes of exactly those places
that may be gone back to, and an undo record for each of their blocks but the lowest
(`Trail.Sound`). Attaching a block adds a place to this picture and taking back the tip removes
one. Dropping old entries moves its lower edge, and never further than the greatest tip height
allows.
-/

namespace MiningGame.Trail

variable {rules : BlockRules} {o : Origin} {t : Trail}

/-- What a node keeps of the surviving branch. -/
structure Sound (rules : BlockRules) (o : Origin) (t : Trail) : Prop where
  linked : Linked rules o t.branch
  here : t.node.place = top o t.branch
  depth : t.node.chain.undoDepth = o.undoDepth
  low_le : t.low o ≤ t.node.chain.tip.height.toNat
  le_peak : t.node.chain.tip.height.toNat ≤ t.peak
  hashes : ∀ k hash, t.node.chain.hashes.get? k = some hash ↔
    t.low o ≤ k.toNat ∧ ∃ p ∈ places o t.branch, p.tip = ⟨k, hash⟩
  recorded : ∀ k undo, t.node.chain.journal.blocks.get? k = some undo →
    Recorded rules o t.branch k undo
  kept : ∀ k undo, Recorded rules o t.branch k undo → t.low o < k.toNat →
    t.node.chain.journal.blocks.get? k = some undo

theorem sound_start (rules : BlockRules) (o : Origin) : (start o).Sound rules o where
  linked := .nil
  here := rfl
  depth := rfl
  low_le := by
    change max o.height.toNat (o.height.toNat - o.undoDepth.toNat) ≤ o.height.toNat
    omega
  le_peak := Nat.le_refl _
  hashes := by
    intro k hash
    have hlow : (start o).low o = o.height.toNat := by
      change max o.height.toNat (o.height.toNat - o.undoDepth.toNat) = o.height.toNat
      omega
    change (Table.empty.insert o.height o.hash).get? k = some hash ↔ _
    rw [Table.get?_insert, hlow]
    constructor
    · intro h
      split at h
      · next hk =>
        cases h
        obtain rfl := rank_injective hk
        exact ⟨Nat.le_refl _, o.place, List.mem_singleton_self _, rfl⟩
      · cases h
    · rintro ⟨-, p, hp, htip⟩
      obtain rfl := List.mem_singleton.1 hp
      cases htip
      exact if_pos rfl
  recorded := fun _ _ h ↦ nomatch h
  kept := fun _ _ h ↦ nomatch h

namespace Sound

theorem tip_eq (h : t.Sound rules o) : t.node.chain.tip = (top o t.branch).tip :=
  congrArg Place.tip h.here

theorem state_eq (h : t.Sound rules o) : t.node.state = (top o t.branch).state :=
  congrArg Place.state h.here

theorem wellFormed (h : t.Sound rules o) : t.node.state.WellFormed := by
  rw [h.state_eq]
  exact h.linked.wellFormed

theorem origin_le_low (t : Trail) : o.height.toNat ≤ t.low o := Nat.le_max_left _ _

/-- The lowest hash that is kept is that of the lowest place that may be gone back to. -/
theorem horizon (h : t.Sound rules o) : t.node.chain.horizon.toNat = t.low o := by
  have htop := h.low_le
  obtain ⟨k, hk⟩ : ∃ k : UInt64, k.toNat = t.low o :=
    ⟨.ofNat (t.low o), UInt64.toNat_ofNat_of_lt'
      (Nat.lt_of_le_of_lt htop t.node.chain.tip.height.toNat_lt)⟩
  rw [h.tip_eq, ← hk] at htop
  obtain ⟨hheight, hplace⟩ := h.linked.top_upTo (hk ▸ origin_le_low t) htop
  generalize top o (upTo t.branch k) = p at hheight hplace
  have hkey : k ∈ t.node.chain.hashes.keys :=
    Table.mem_keys_iff.2 ⟨p.tip.hash,
      (h.hashes k _).2 ⟨Nat.le_of_eq hk.symm, p, hplace, by rw [← hheight]⟩⟩
  have hleast : ∀ k' ∈ t.node.chain.hashes.keys, k.toNat ≤ k'.toNat := by
    intro k' hk'
    obtain ⟨hash, hhash⟩ := Table.mem_keys_iff.1 hk'
    rw [hk]
    exact ((h.hashes k' hash).1 hhash).1
  rw [ChainContext.horizon_eq hkey hleast, hk]

/-- No record lies above the tip. -/
theorem newest (h : t.Sound rules o) :
    ∀ k ∈ t.node.chain.journal.blocks.keys, k.toNat ≤ t.node.chain.tip.height.toNat := by
  intro k hk
  obtain ⟨undo, hundo⟩ := Table.mem_keys_iff.1 hk
  rw [h.tip_eq]
  exact (h.linked.recorded_height (h.recorded k undo hundo)).2

end Sound

end MiningGame.Trail
