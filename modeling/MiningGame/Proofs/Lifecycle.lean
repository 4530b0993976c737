import MiningGame.Proofs.Finds
import MiningGame.Proofs.Provenance
import MiningGame.Proofs.Snapshots

/-!
# What becomes of deposits

A deposit is there from the block in which somebody finds it until its last unit is extracted. A
block never replaces it. It leaves a deposit with the units that are not extracted, a find in a
region without deposit becomes one, and all other records stay as they are. The totals of what was
ever prospected grow by what is found.
-/

namespace MiningGame

/-- What a block makes of the records of regions and of the totals of what was ever prospected. -/
structure BlockInput.Settles (b : BlockInput) (prospector : Prospector) (s s' : GameState)
    (undo : BlockUndo) : Prop where
  /-- A deposit loses what is extracted from it, and its type with the last unit. -/
  keeps : ∀ region resource amount prospection,
    s.deposits.record? region = some ⟨some resource, amount, prospection⟩ →
      ∃ left : UInt64, left.toNat + undo.taken region = amount.toNat ∧
        s'.deposits.record? region =
          some ⟨if left = 0 then none else some resource, left, prospection⟩
  /-- Where nobody searches or nothing is to be found, no deposit comes to be. -/
  leaves : ∀ region, s.deposits.resource? region = none →
    (∀ id, ¬ b.Searches s region id) ∨
        (∀ find, prospector region b.height = some find → find.amount = 0) →
      s'.deposits.record? region = s.deposits.record? region
  /-- What is found goes to the first character that searches, less what is extracted at once. -/
  founds : ∀ region find, s.deposits.resource? region = none →
    (∃ id, b.Searches s region id) → prospector region b.height = some find → find.amount ≠ 0 →
      ∃ id, b.Searches s region id ∧ (∀ k, b.Searches s region k → id.value ≤ k.value) ∧
        ∃ left : UInt64, left.toNat + undo.taken region = find.amount.toNat ∧
          s'.deposits.record? region =
            some ⟨if left = 0 then none else some find.resource, left, ⟨id, b.height⟩⟩
  /-- The totals grow by what is found, each find counting once. -/
  totals : ∃ finds : List Strike, finds.Nodup ∧
    (∀ x, x ∈ finds ↔ b.Finds prospector s x.region x.character x.find) ∧
    ∀ r, s'.deposits.prospectedOf r = s.deposits.prospectedOf r +
      (finds.map fun x ↦ units x.find.resource x.find.amount r).sum

section Moves

variable {b : BlockInput} {prospector : Prospector} {s : GameState} {region : RegionId}
  {id : CharacterId} {find : Find}

theorem BlockInput.Finds.record?_movedAll (h : b.Finds prospector s region id find) :
    ((s.begun b).movedAll prospector b.orders).record? region =
        some ⟨some find.resource, find.amount, ⟨id, b.height⟩⟩ := by
  have hascending := b.orders_ascending
  exact Outline.movedAll_record?_of_mem hascending
    ((Outline.mem_strikes_iff hascending).2 (BlockInput.finds_iff.1 h))

/-- Where nobody finds anything, the moves leave the record. -/
theorem record?_movedAll_of_not (h : ∀ id find, ¬ b.Finds prospector s region id find) :
    ((s.begun b).movedAll prospector b.orders).record? region = s.deposits.record? region := by
  apply Outline.movedAll_record?_of_not
  rintro ⟨region', id, find⟩ hx rfl
  have hstrike := (Outline.mem_strikes_iff b.orders_ascending).1 hx
  exact h id find (BlockInput.finds_iff.2 hstrike)

end Moves

section Block

variable {rules : BlockRules} {b : BlockInput} {s s' : GameState}
  {undo : BlockUndo} {region : RegionId} {id : CharacterId} {find : Find}

/-- After the moves, a record changes by what is extracted only. -/
theorem processBlock_depleted (h : processBlock rules b s = .ok undo s')
    (hs : s.Tidy) (hmanned : (s.outline b.height).Manned) (region : RegionId) :
    Outline.Depleted (((s.begun b).movedAll rules.prospector b.orders).record? region)
      (s'.deposits.record? region) (undo.taken region) := by
  obtain ⟨o, hroamed, hmined⟩ := processBlock_roams h hs hmanned
  obtain ⟨taken, hsum, hdepleted⟩ := hmined.depleted region
  have hnone : o.taken region = 0 := by
    rw [hroamed.taken, Outline.movedAll_taken]
    rfl
  rw [hnone, Nat.zero_add] at hsum
  rw [hroamed.record?] at hdepleted
  rw [show undo.taken region = taken from hsum]
  exact hdepleted

theorem processBlock_keeps {resource : Resource} {amount : UInt64} {prospection : Prospection}
    (h : processBlock rules b s = .ok undo s') (hs : s.Tidy)
    (hmanned : (s.outline b.height).Manned)
    (hrecord : s.deposits.record? region = some ⟨some resource, amount, prospection⟩) :
    ∃ left : UInt64, left.toNat + undo.taken region = amount.toNat ∧
      s'.deposits.record? region =
        some ⟨if left = 0 then none else some resource, left, prospection⟩ := by
  have hdepleted := processBlock_depleted h hs hmanned region
  have hnone : ∀ id find, ¬ b.Finds rules.prospector s region id find := by
    intro id find hfinds
    have hvacant := hfinds.vacant
    rw [Deposits.resource?, hrecord] at hvacant
    cases hvacant
  rw [record?_movedAll_of_not hnone, hrecord] at hdepleted
  exact hdepleted

theorem processBlock_founds (h : processBlock rules b s = .ok undo s')
    (hs : s.Tidy) (hmanned : (s.outline b.height).Manned)
    (hfinds : b.Finds rules.prospector s region id find) :
    ∃ left : UInt64, left.toNat + undo.taken region = find.amount.toNat ∧
      s'.deposits.record? region =
        some ⟨if left = 0 then none else some find.resource, left, ⟨id, b.height⟩⟩ := by
  have hdepleted := processBlock_depleted h hs hmanned region
  rw [hfinds.record?_movedAll] at hdepleted
  exact hdepleted

theorem processBlock_leaves (h : processBlock rules b s = .ok undo s')
    (hs : s.Tidy) (hmanned : (s.outline b.height).Manned)
    (hvacant : s.deposits.resource? region = none)
    (hnone : ∀ id find, ¬ b.Finds rules.prospector s region id find) :
    s'.deposits.record? region = s.deposits.record? region := by
  have hdepleted := processBlock_depleted h hs hmanned region
  rw [record?_movedAll_of_not hnone] at hdepleted
  rcases hrecord : s.deposits.record? region with _ | ⟨_ | resource, amount, prospection⟩
  · rw [hrecord] at hdepleted
    exact hdepleted.1
  · rw [hrecord] at hdepleted
    exact hdepleted.1
  · rw [Deposits.resource?, hrecord] at hvacant
    cases hvacant

/-- The totals grow by the finds of the block, each of which counts once. -/
theorem processBlock_prospected (h : processBlock rules b s = .ok undo s')
    (hs : s.Tidy) (hmanned : (s.outline b.height).Manned) :
    ∃ finds : List Strike, finds.Nodup ∧
      (∀ x, x ∈ finds ↔ b.Finds rules.prospector s x.region x.character x.find) ∧
      ∀ r, s'.deposits.prospectedOf r = s.deposits.prospectedOf r +
        (finds.map fun x ↦ units x.find.resource x.find.amount r).sum := by
  have hascending := b.orders_ascending
  refine ⟨Outline.strikes rules.prospector (s.begun b) b.orders,
    Outline.strikes_nodup hascending, ?_, ?_⟩
  · intro x
    exact (Outline.mem_strikes_iff hascending).trans BlockInput.finds_iff.symm
  · intro r
    obtain ⟨o, hroamed, hmined⟩ := processBlock_roams h hs hmanned
    have hsame := congrFun (hmined.prospected.trans hroamed.prospected) r
    exact hsame.trans (Outline.movedAll_prospected r)

theorem processBlock_settles (h : processBlock rules b s = .ok undo s')
    (hs : s.Tidy) (hmanned : (s.outline b.height).Manned) :
    b.Settles rules.prospector s s' undo where
  keeps := fun _ _ _ _ hrecord ↦ processBlock_keeps h hs hmanned hrecord
  leaves := by
    intro region hvacant hnothing
    apply processBlock_leaves h hs hmanned hvacant
    intro id find hfinds
    rcases hnothing with hnobody | hempty
    · exact hnobody id hfinds.searches
    · exact hfinds.positive (hempty find hfinds.found)
  founds := by
    rintro region find hvacant ⟨k, hk⟩ hfound hpositive
    obtain ⟨id, hfinds⟩ := hk.exists_finds hvacant hfound hpositive
    exact ⟨id, hfinds.searches, hfinds.first, processBlock_founds h hs hmanned hfinds⟩
  totals := processBlock_prospected h hs hmanned

end Block

namespace Trail

variable {rules rules' : BlockRules} {o : Origin} {calls : List Call} {b : BlockInput}
  {s' : GameState} {undo : BlockUndo}

/-- After any run, and under any rules, a block that succeeds settles the deposits. -/
theorem run_settles
    (h : processBlock rules' b (run rules o calls).node.state = .ok undo s') :
    b.Settles rules'.prospector (run rules o calls).node.state s' undo := by
  have hsound := sound_run rules o calls
  exact processBlock_settles h hsound.tidy (hsound.manned b.height)

namespace Sample

/-- In a used up region two characters prospect, and a third mines what they find. -/
def race : BlockInput :=
  ⟨4, ⟨"d"⟩, ⟨"c"⟩, [⟨"owner", "second", ⟨3, 4⟩⟩, ⟨"owner", "third", ⟨3, 4⟩⟩],
    [(⟨2⟩, ⟨[.prospect]⟩), (⟨3⟩, ⟨[.mine]⟩), (.first, ⟨[.prospect]⟩)]⟩

end Sample

/-- The first character finds the deposit, and units are extracted from it in the same block. -/
theorem run_settles_sample :
    let s := (run (Sample.seven 10) Sample.origin Sample.direct).node.state
    let region := Sample.origin.grid.regionAt ⟨3, 4⟩
    ∃ undo s' id, processBlock (Sample.seven 3) Sample.race s = .ok undo s' ∧
      id.value ≤ CharacterId.first.value ∧ undo.taken region = 3 ∧
      s'.deposits.record? region = some ⟨some .rawB, 4, ⟨id, 4⟩⟩ := by
  intro s region
  have hvacant : s.deposits.resource? region = none := by decide +kernel
  have hsearches : Sample.race.Searches s region .first := by
    have hstance : ((s.opened Sample.race).roster.get? .first).map Character.stance =
        some ⟨⟨3, 4⟩, [], .idle⟩ := by decide +kernel
    obtain ⟨c, found, hc⟩ := Option.map_eq_some_iff.1 hstance
    have hposition : c.position = ⟨3, 4⟩ := congrArg Stance.position hc
    have hresting : c.waypoints = [] := congrArg Stance.waypoints hc
    refine ⟨c, found, ?_, hresting, by decide +kernel, by decide +kernel, by decide +kernel⟩
    rw [hposition]
    decide +kernel
  have htaken : (outcome? (processBlock (Sample.seven 3) Sample.race s)).map
      (fun x ↦ x.1.taken region) = some 3 := by decide +kernel
  obtain ⟨⟨undo, s'⟩, hrun, htaken⟩ := Option.map_eq_some_iff.1 htaken
  rw [outcome?_eq_some_iff] at hrun
  have hsettles := run_settles hrun
  obtain ⟨id, -, hfirst, left, hsum, hrecord⟩ :=
    hsettles.founds region ⟨.rawB, 7⟩ hvacant ⟨.first, hsearches⟩ rfl (by decide)
  rw [htaken] at hsum
  have hleft : left = 4 := UInt64.toNat_inj.1 (Nat.add_right_cancel (hsum.trans rfl))
  subst hleft
  exact ⟨undo, s', id, hrun, hfirst .first hsearches, htaken, hrecord⟩

end Trail

end MiningGame
