import MiningGame.Proofs.Opening

/-!
# Miners and records along a run

Blocks keep miners at deposits, whatever the rules. What they write into a record of a region is the
number of a character that exists and their own height. So in every state of a run each miner stands
in a region with units left, and each record tells of a prospection in one of the blocks that
stand.
-/

namespace MiningGame

/-- Every record names a character that exists, and a height above one and up to another. -/
def GameState.Dated (s : GameState) (low high : Nat) : Prop :=
  ∀ region record, s.deposits.record? region = some record →
    (∃ c, s.roster.get? record.prospection.character = some c) ∧
      low < record.prospection.height.toNat ∧ record.prospection.height.toNat ≤ high

namespace Outline

variable {o o' : Outline}

theorem Manned.congr (h : o.Manned) (hgrid : o'.grid = o.grid) (hstance : o'.stance? = o.stance?)
    (hrecord : o'.record? = o.record?) : o'.Manned := by
  constructor
  · intro id st r hst hr
    rw [hstance] at hst
    have hsite := h.site id st r hst hr
    simp only [Outline.site, hgrid] at hsite ⊢
    exact hsite
  · intro id st r hst hr
    rw [hstance] at hst
    have hstocked := h.stocked id st r hst hr
    simp only [Outline.stocked, hrecord] at hstocked ⊢
    exact hstocked

/-- Taking units from a deposit leaves its prospection. -/
theorem Depleted.prospection {before after : Option RegionRecord} {taken : Nat}
    {record : RegionRecord} (h : Depleted before after taken) (hafter : after = some record) :
    ∃ old, before = some old ∧ old.prospection = record.prospection := by
  rcases before with _ | ⟨_ | resource, amount, prospection⟩
  · obtain ⟨rfl, -⟩ := h
    cases hafter
  · obtain ⟨rfl, -⟩ := h
    exact ⟨record, hafter, rfl⟩
  · obtain ⟨left, -, rfl⟩ := h
    cases hafter
    exact ⟨_, rfl, rfl⟩

end Outline

section Block

variable {rules : BlockRules} {b : BlockInput} {s s' : GameState} {undo : BlockUndo}

/-- The phases of a block under any policy. -/
theorem processBlock_roams (h : processBlock rules b s = .ok undo s') (hs : s.Tidy)
    (hmanned : (s.outline b.height).Manned) :
    ∃ o, Outline.Roamed ((s.begun b).movedAll rules.prospector b.orders) o ∧
      Outline.Mined o (Progress.mk s' undo).outline :=
  processBlock_phases h hs hmanned (fun _ ↦ Turn.movement_draws) fun _ _ ↦ Outline.Manned.roamed

theorem processBlock_manned (h : processBlock rules b s = .ok undo s') (hs : s.Tidy)
    (hmanned : ∀ height, (s.outline height).Manned) (height : UInt64) :
    (s'.outline height).Manned := by
  obtain ⟨o, hroamed, hmined⟩ := processBlock_roams h hs (hmanned b.height)
  have hopened := GameState.manned_opened (b := b) hs.wellFormed (hmanned b.height)
  have hafter := ((hopened.movedAll _ _).roamed hroamed).mined hmined
  exact hafter.congr rfl rfl rfl

/-- Nobody who is there when the moves begin is gone in the end. -/
theorem processBlock_present (h : processBlock rules b s = .ok undo s') (hs : s.Tidy)
    (hmanned : (s.outline b.height).Manned) (id : CharacterId)
    (hid : ((s.begun b).stance? id).isSome) :
    ∃ c, s'.roster.get? id = some c := by
  obtain ⟨o, hroamed, hmined⟩ := processBlock_roams h hs hmanned
  have hlast : ((Progress.mk s' undo).outline.stance? id).isSome := by
    rw [hmined.stance?, Option.isSome_map, hroamed.exists_iff,
      Outline.movedAll_stance? b.orders_ascending, Option.isSome_map]
    exact hid
  obtain ⟨st, hst⟩ := Option.isSome_iff_exists.1 hlast
  obtain ⟨c, found, -⟩ := Option.map_eq_some_iff.1 hst
  exact ⟨c, found⟩

/-- A record that a block leaves behind is an old one or dates from the block itself. -/
theorem processBlock_dated {low : Nat} {top : UInt64} (h : processBlock rules b s = .ok undo s')
    (hs : s.Tidy) (hmanned : (s.outline b.height).Manned) (hdated : s.Dated low top.toNat)
    (hlow : low ≤ top.toNat) (hnext : top.toNat + 1 = b.height.toNat) :
    s'.Dated low b.height.toNat := by
  intro region record hrecord
  obtain ⟨o, hroamed, hmined⟩ := processBlock_roams h hs hmanned
  obtain ⟨taken, -, hdepleted⟩ := hmined.depleted region
  obtain ⟨old, hold, hsame⟩ := hdepleted.prospection hrecord
  rw [hroamed.record?] at hold
  rw [← hsame]
  have hascending := b.orders_ascending
  by_cases hstruck : ∃ x ∈ Outline.strikes rules.prospector (s.begun b) b.orders, x.region = region
  · obtain ⟨x, hx, rfl⟩ := hstruck
    rw [Outline.movedAll_record?_of_mem hascending hx] at hold
    cases hold
    obtain ⟨-, ⟨m, -, st, hst, -⟩, -⟩ := (Outline.mem_strikes_iff hascending).1 hx
    have hpresent := processBlock_present h hs hmanned x.character (by rw [hst]; rfl)
    have habove : low < b.height.toNat := by omega
    exact ⟨hpresent, habove, Nat.le_refl _⟩
  · rw [Outline.movedAll_record?_of_not fun x hx hregion ↦ hstruck ⟨x, hx, hregion⟩] at hold
    obtain ⟨⟨c, found⟩, habove, hbelow⟩ := hdated region old hold
    have hkept := GameState.get?_opened_of_get? (b := b) hs.wellFormed found
    have hpresent := processBlock_present h hs hmanned old.prospection.character
      (by rw [show (s.begun b).stance? old.prospection.character =
        some c.stance from Roster.stance?_of_get? hkept]; rfl)
    exact ⟨hpresent, habove, by omega⟩

end Block

namespace Trail

variable {rules : BlockRules} {o : Origin} {t : Trail} {branch : List Milestone}

theorem Linked.manned (h : Linked rules o branch) (height : UInt64) :
    ((top o branch).state.outline height).Manned := by
  induction h generalizing height with
  | nil => exact ⟨fun _ _ _ hst _ ↦ (nomatch hst), fun _ _ _ hst _ ↦ (nomatch hst)⟩
  | cons _ processed rest ih => exact processBlock_manned processed rest.tidy ih height

theorem Linked.dated (h : Linked rules o branch) :
    (top o branch).state.Dated o.height.toNat (top o branch).tip.height.toNat := by
  induction h with
  | nil => exact fun _ _ hrecord ↦ nomatch hrecord
  | cons continues processed rest ih =>
    have hnext := Word.add?_eq_some_iff.1 continues
    exact processBlock_dated processed rest.tidy (rest.manned _) ih rest.origin_le hnext

theorem Sound.manned (h : t.Sound rules o) (height : UInt64) :
    (t.node.state.outline height).Manned := by
  rw [h.state_eq]
  exact h.linked.manned height

/-- After any calls, every miner stands in a region whose record has a type and units left, records
have a type exactly while units are left, and every record names a character that exists and a
height above the origin, up to the tip. -/
theorem run_miners_and_records (rules : BlockRules) (o : Origin) (calls : List Call) :
    let n := (run rules o calls).node
    (∀ id c r, n.state.roster.get? id = some c → c.mining = .mining r →
      n.state.grid.regionAt c.position = r ∧ ∃ record, n.state.deposits.record? r = some record ∧
        record.resource.isSome ∧ 0 < record.remaining) ∧
    ∀ r record, n.state.deposits.record? r = some record →
      (record.resource.isSome ↔ 0 < record.remaining) ∧
      (∃ c, n.state.roster.get? record.prospection.character = some c) ∧
      o.height < record.prospection.height ∧
      record.prospection.height ≤ n.chain.tip.height := by
  intro n
  have h : (run rules o calls).Sound rules o := sound_run rules o calls
  have hmanned : (n.state.outline 0).Manned := h.manned 0
  have hdated : n.state.Dated o.height.toNat n.chain.tip.height.toNat := by
    rw [h.state_eq, h.tip_eq]
    exact h.linked.dated
  have htyped : ∀ r record, n.state.deposits.record? r = some record →
      (record.resource.isSome ↔ 0 < record.remaining) := by
    intro r record hrecord
    rw [UInt64.pos_iff_ne_zero]
    exact h.tidy.typed r record hrecord
  constructor
  · intro id c r found hmining
    have hst : (n.state.outline 0).stance? id = some c.stance := Roster.stance?_of_get? found
    obtain ⟨record, hrecord, hdeposit⟩ :=
      Outline.stocked_eq_true_iff.1 (hmanned.stocked id c.stance r hst hmining)
    exact ⟨hmanned.site id c.stance r hst hmining, record, hrecord, hdeposit,
      (htyped r record hrecord).1 hdeposit⟩
  · intro r record hrecord
    obtain ⟨hpresent, habove, hbelow⟩ := hdated r record hrecord
    exact ⟨htyped r record hrecord, hpresent, UInt64.lt_iff_toNat_lt.2 habove,
      UInt64.le_iff_toNat_le.2 hbelow⟩

end Trail

end MiningGame
