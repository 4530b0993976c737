import MiningGame.Proofs.Strikes
import MiningGame.Proofs.Walking

/-!
# What miners do

Every miner stands in a region that has a deposit (`Outline.Manned`). Moves and walking keep this,
and extraction keeps it because the miners of a region stop in the moment it runs out, those of them
included that are still to have their turn. So in the end a deposit has lost what was taken from it,
and exactly the miners of used up regions are idle (`Outline.Mined`).
-/

namespace MiningGame

namespace Outline

/-- Every miner stands in a region that has a deposit. -/
structure Manned (o : Outline) : Prop where
  site : ∀ id st r, o.stance? id = some st → st.mining = .mining r → o.site st = r
  stocked : ∀ id st r, o.stance? id = some st → st.mining = .mining r → o.stocked r = true

/-- A record names a type exactly while units are left. -/
def Typed (o : Outline) : Prop := ∀ region record, o.record? region = some record → record.Typed

/-- The stance of a miner in the end, who stops if nothing is left. -/
def rested (o : Outline) (st : Stance) : Stance :=
  match st.mining with
  | .idle => st
  | .mining r => if o.stocked r then st else { st with mining := .idle }

/-- What becomes of a record when units are taken from it. -/
def Depleted (before after : Option RegionRecord) (taken : Nat) : Prop :=
  match before with
  | some ⟨some resource, amount, prospection⟩ =>
    ∃ left : UInt64, left.toNat + taken = amount.toNat ∧
      after = some ⟨if left = 0 then none else some resource, left, prospection⟩
  | _ => after = before ∧ taken = 0

/-- Units were taken from deposits, and the miners of used up regions have stopped. -/
structure Mined (o o' : Outline) : Prop where
  height : o'.height = o.height
  grid : o'.grid = o.grid
  prospected : o'.prospected = o.prospected
  depleted : ∀ region, ∃ taken, o'.taken region = o.taken region + taken ∧
    Depleted (o.record? region) (o'.record? region) taken
  stance? : ∀ id, o'.stance? id = (o.stance? id).map o'.rested

variable {o o' o'' : Outline} {st : Stance} {region r : RegionId}

/-! ### Miners have deposits -/

/-- Whoever mines after its move did so before, or has started at a deposit. -/
theorem Manned.told (h : o.Manned) {id : CharacterId} {m : CharacterMove}
    (hst : o.stance? id = some st) (hr : (o.told m st).mining = .mining r) :
    o.site (o.told m st) = r ∧ o.stocked r = true := by
  have hbefore : st.mining = .mining r → o.site st = r ∧ o.stocked r = true :=
    fun hr ↦ ⟨h.site id st r hst hr, h.stocked id st r hst hr⟩
  cases hway : m.waypoints? with
  | some places =>
    simp only [Outline.told, hway] at hr
    cases hr
  | none =>
    cases hmines : m.mines with
    | false =>
      simp only [Outline.told, hway, hmines, Bool.false_eq_true, if_false] at hr ⊢
      exact hbefore hr
    | true =>
      simp only [Outline.told, hway, hmines, if_true, started] at hr ⊢
      split at hr
      · next hstart =>
        cases hr
        rw [if_pos hstart]
        exact ⟨rfl, hstart.1⟩
      · next hstart =>
        rw [if_neg hstart]
        exact hbefore hr

theorem Manned.moved (h : o.Manned) (prospector : Prospector) (id : CharacterId)
    (m : CharacterMove) : (o.moved prospector id m).Manned := by
  have hall : ∀ id' st r, (o.moved prospector id m).stance? id' = some st →
      st.mining = .mining r → o.site st = r ∧ o.stocked r = true := by
    intro id' st r hst hr
    rw [moved_stance?] at hst
    by_cases hid : id' = id
    · subst hid
      rw [Function.update_self] at hst
      obtain ⟨st₀, hst₀, rfl⟩ := Option.map_eq_some_iff.1 hst
      exact h.told hst₀ hr
    · rw [Function.update_of_ne hid] at hst
      exact ⟨h.site id' st r hst hr, h.stocked id' st r hst hr⟩
  constructor
  · intro id' st r hst hr
    rw [Outline.site, moved_grid]
    exact (hall id' st r hst hr).1
  · intro id' st r hst hr
    exact stocked_moved_iff.2 (.inl (hall id' st r hst hr).2)

theorem Manned.movedAll (h : o.Manned) (prospector : Prospector)
    (es : List (CharacterId × CharacterMove)) : (o.movedAll prospector es).Manned := by
  induction es generalizing o with
  | nil => exact h
  | cons e rest ih => exact ih (h.moved prospector e.1 e.2)

theorem Manned.roamed (h : o.Manned) (hr : Roamed o o') : o'.Manned := by
  constructor
  · intro id st' r hst' hmining
    obtain ⟨st, hst, hmines, hplace⟩ := hr.mines id st' r hst' hmining
    have hsite := h.site id st r hst hmines
    simp only [Outline.site, hr.grid, hplace] at hsite ⊢
    exact hsite
  · intro id st' r hst' hmining
    obtain ⟨st, hst, hmines, -⟩ := hr.mines id st' r hst' hmining
    have hstocked := h.stocked id st r hst hmines
    simp only [Outline.stocked, hr.record?] at hstocked ⊢
    exact hstocked

/-! ### Coming to rest -/

theorem rested_of_stocked (h : ∀ r, st.mining = .mining r → o.stocked r = true) :
    o.rested st = st := by
  cases hr : st.mining with
  | idle => simp only [rested, hr]
  | mining r => simp only [rested, hr, h r hr, if_true]

theorem rested_mining_iff :
    (o.rested st).mining = .mining r ↔ st.mining = .mining r ∧ o.stocked r = true := by
  cases hr : st.mining with
  | idle => simp [rested, hr]
  | mining r' =>
    cases hstocked : o.stocked r' with
    | true =>
      simp only [rested, hr, hstocked, if_true, MiningStatus.mining.injEq]
      constructor
      · rintro rfl
        exact ⟨rfl, hstocked⟩
      · exact And.left
    | false =>
      simp only [rested, hr, hstocked, Bool.false_eq_true, if_false, reduceCtorEq, false_iff,
        MiningStatus.mining.injEq]
      rintro ⟨rfl, hleft⟩
      rw [hstocked] at hleft
      cases hleft

theorem rested_place :
    (o.rested st).position = st.position ∧ (o.rested st).waypoints = st.waypoints := by
  rw [rested]
  split
  · exact ⟨rfl, rfl⟩
  · split <;> exact ⟨rfl, rfl⟩

theorem Manned.rested (h : o.Manned) {id : CharacterId} (hst : o.stance? id = some st) :
    o.rested st = st :=
  rested_of_stocked fun r hr ↦ h.stocked id st r hst hr

theorem Manned.mined (h : o.Manned) (hm : Mined o o') : o'.Manned := by
  have hback : ∀ id st' r, o'.stance? id = some st' → st'.mining = .mining r →
      o.stance? id = some st' ∧ o'.stocked r = true := by
    intro id st' r hst' hr
    rw [hm.stance?] at hst'
    obtain ⟨st, hst, rfl⟩ := Option.map_eq_some_iff.1 hst'
    obtain ⟨hmining, hstocked⟩ := rested_mining_iff.1 hr
    have hself : o'.rested st = st := by
      apply rested_of_stocked
      intro r' hr'
      cases hmining.symm.trans hr'
      exact hstocked
    rw [hself]
    exact ⟨hst, hstocked⟩
  constructor
  · intro id st' r hst' hr
    have hsite := h.site id st' r (hback id st' r hst' hr).1 hr
    simp only [Outline.site, hm.grid] at hsite ⊢
    exact hsite
  · intro id st' r hst' hr
    exact (hback id st' r hst' hr).2

/-! ### Taking units from deposits -/

theorem Depleted.refl {record? : Option RegionRecord}
    (h : ∀ record, record? = some record → record.Typed) : Depleted record? record? 0 := by
  rcases record? with _ | ⟨_ | resource, amount, prospection⟩
  · exact ⟨rfl, rfl⟩
  · exact ⟨rfl, rfl⟩
  · have hleft : amount ≠ 0 := (h _ rfl).1 rfl
    exact ⟨amount, rfl, by rw [if_neg hleft]⟩

theorem Depleted.trans {before mid after : Option RegionRecord} {taken taken' : Nat}
    (h : Depleted before mid taken) (h' : Depleted mid after taken') :
    Depleted before after (taken + taken') := by
  rcases before with _ | ⟨_ | resource, amount, prospection⟩
  · obtain ⟨rfl, rfl⟩ := h
    rw [Nat.zero_add]
    exact h'
  · obtain ⟨rfl, rfl⟩ := h
    rw [Nat.zero_add]
    exact h'
  · obtain ⟨left, hsum, rfl⟩ := h
    by_cases hzero : left = 0
    · simp only [hzero, if_true] at h'
      obtain ⟨rfl, rfl⟩ := h'
      subst hzero
      exact ⟨0, hsum, rfl⟩
    · simp only [hzero, if_false] at h'
      obtain ⟨left', hsum', rfl⟩ := h'
      exact ⟨left', by omega, rfl⟩

theorem Depleted.without {record : RegionRecord} {taken : UInt64}
    (hdeposit : record.resource.isSome) (hle : taken.toNat ≤ record.remaining.toNat) :
    Depleted (some record) (some (record.without taken)) taken.toNat := by
  rcases record with ⟨_ | resource, amount, prospection⟩
  · cases hdeposit
  · refine ⟨amount - taken, ?_, rfl⟩
    rw [Word.toNat_sub_of_le hle]
    exact Nat.sub_add_cancel hle

/-- Extraction leaves no deposit where there was none. -/
theorem Depleted.isSome {before after : Option RegionRecord} {taken : Nat}
    (h : Depleted before after taken) (hafter : (after.any fun r ↦ r.resource.isSome) = true) :
    (before.any fun r ↦ r.resource.isSome) = true := by
  rcases before with _ | ⟨_ | resource, amount, prospection⟩
  · obtain ⟨rfl, -⟩ := h
    exact hafter
  · obtain ⟨rfl, -⟩ := h
    exact hafter
  · rfl

theorem Mined.stocked (h : Mined o o') (hr : o'.stocked region = true) :
    o.stocked region = true := by
  obtain ⟨taken, -, hdepleted⟩ := h.depleted region
  exact hdepleted.isSome hr

theorem Mined.refl (h : o.Manned) (ht : o.Typed) : Mined o o where
  height := rfl
  grid := rfl
  prospected := rfl
  depleted := fun region ↦ ⟨0, rfl, .refl (ht region)⟩
  stance? := by
    intro id
    cases hst : o.stance? id with
    | none => rfl
    | some st => rw [Option.map_some, h.rested hst]

theorem Mined.trans (h : Mined o o') (h' : Mined o' o'') : Mined o o'' where
  height := h'.height.trans h.height
  grid := h'.grid.trans h.grid
  prospected := h'.prospected.trans h.prospected
  depleted := by
    intro region
    obtain ⟨taken, hsum, hdepleted⟩ := h.depleted region
    obtain ⟨taken', hsum', hdepleted'⟩ := h'.depleted region
    exact ⟨taken + taken', by omega, hdepleted.trans hdepleted'⟩
  stance? := by
    intro id
    rw [h'.stance?, h.stance?, Option.map_map]
    congr 1
    funext st
    unfold rested
    cases hr : st.mining with
    | idle => simp [hr]
    | mining r =>
      cases hstocked : o'.stocked r with
      | true => simp [hr, hstocked]
      | false =>
        have hstocked' : o''.stocked r = false := by
          rw [← Bool.not_eq_true]
          intro hafter
          rw [h'.stocked hafter] at hstocked
          cases hstocked
        simp [hr, hstocked, hstocked']

/-- The outline after a miner has taken units from a region, and all its miners have stopped if none
are left. -/
def worked (o : Outline) (region : RegionId) (record : RegionRecord) (taken : UInt64) : Outline :=
  let o' := o.extracted region record taken
  { o' with stance? := fun id ↦ (o.stance? id).map o'.rested }

variable {record : RegionRecord} {taken : UInt64}

theorem mined_worked (ht : o.Typed) (hrecord : o.record? region = some record)
    (hdeposit : record.resource.isSome) (hle : taken.toNat ≤ record.remaining.toNat) :
    Mined o (o.worked region record taken) := by
  refine ⟨rfl, rfl, rfl, ?_, fun _ ↦ rfl⟩
  intro r
  change ∃ n, (o.taken r + if region = r then taken.toNat else 0) = o.taken r + n ∧
    Depleted (o.record? r) (Function.update o.record? region (some (record.without taken)) r) n
  by_cases hr : r = region
  · subst hr
    refine ⟨taken.toNat, by simp, ?_⟩
    rw [Function.update_self, hrecord]
    exact .without hdeposit hle
  · refine ⟨0, by simp [Ne.symm hr], ?_⟩
    rw [Function.update_of_ne hr]
    exact .refl (ht r)

/-- Only the miners of the region can come to rest when units are taken from it. -/
theorem Manned.rested_extracted (h : o.Manned) {id : CharacterId} (hst : o.stance? id = some st) :
    (o.extracted region record taken).rested st =
      if (o.extracted region record taken).stocked region = false ∧ st.mining = .mining region
      then { st with mining := .idle } else st := by
  unfold Outline.rested
  cases hr : st.mining with
  | idle => simp
  | mining r =>
    by_cases hregion : r = region
    · subst hregion
      cases hleft : (o.extracted r record taken).stocked r <;> simp [hleft]
    · have hbefore := h.stocked id st r hst hr
      have hafter : (o.extracted region record taken).stocked r = o.stocked r := by
        simp [Outline.stocked, extracted, withRecord, hregion]
      simp [hafter, hbefore, hregion]

theorem Manned.worked_of_stocked (h : o.Manned)
    (hleft : (o.extracted region record taken).stocked region = true) :
    o.worked region record taken = o.extracted region record taken := by
  refine Outline.ext rfl rfl ?_ rfl rfl rfl
  funext id
  change (o.stance? id).map (o.extracted region record taken).rested = o.stance? id
  cases hst : o.stance? id with
  | none => rfl
  | some st => simp [h.rested_extracted hst, hleft]

theorem Manned.worked_of_drained (h : o.Manned)
    (hleft : (o.extracted region record taken).stocked region = false) :
    o.worked region record taken = (o.extracted region record taken).cleared region := by
  refine Outline.ext rfl rfl ?_ rfl rfl rfl
  funext id
  change (o.stance? id).map (o.extracted region record taken).rested = (o.stance? id).map _
  cases hst : o.stance? id with
  | none => rfl
  | some st => simp [h.rested_extracted hst, hleft]

end Outline

namespace Turn

variable {o : Outline} {id : CharacterId} {region : RegionId}

theorem typed_outline {p : Progress} (h : p.state.Tidy) : p.outline.Typed := h.typed

theorem extractOne_draws (rate : UInt64) (h : o.Manned) :
    Draws o (extractOne rate id region) fun _ o' ↦ Outline.Mined o o' := by
  apply Draws.withState
  rintro p htidy rfl
  have hself : Outline.Mined p.outline p.outline := .refl h (typed_outline htidy)
  split
  · exact Draws.pure hself
  · next hactive =>
    obtain ⟨c, found, hmining⟩ : ∃ c, p.state.roster.get? id = some c ∧
        c.mining = .mining region := by
      cases hget : p.state.roster.get? id with
      | none => simp [hget] at hactive
      | some c => exact ⟨c, rfl, by simpa [hget] using hactive⟩
    have hstocked := h.stocked id c.stance region (Roster.stance?_of_get? found) hmining
    apply (extract_draws rate).bind
    intro extracted o₁ ho₁
    cases extracted with
    | none =>
      rw [hstocked] at ho₁
      cases ho₁.1
    | some entry =>
      obtain ⟨resource, taken⟩ := entry
      obtain ⟨record, hrecord, hdeposit, htaken, rfl⟩ := ho₁
      have hle : taken.toNat ≤ record.remaining.toNat := by
        rw [htaken]
        exact Word.toNat_min_le_right _ _
      have hmined := Outline.mined_worked (typed_outline htidy) hrecord hdeposit hle
      refine (inRoster_draws_self (Recording.credit_eq id resource taken)
        (Roster.credit_logs id resource taken) ?_).bind ?_
      · intro r out hout
        exact Roster.stance?_credit hout
      · rintro - o₂ rfl
        apply Draws.withState
        intro p' htidy' hp'
        have hempty := htidy'.typed.remaining_eq_zero_iff region
        rw [Deposits.resource?_eq_none_iff, hp'] at hempty
        split
        · next hzero =>
          rw [h.worked_of_drained (hempty.1 hzero)] at hmined
          rw [hp']
          apply (stopRegion_draws region).bind
          rintro _ o₃ rfl
          exact Draws.pure hmined
        · next hleft =>
          rw [h.worked_of_stocked (by simpa using mt hempty.2 hleft)] at hmined
          rw [hp']
          exact Draws.pure hmined

theorem extraction_draws (rate : UInt64) (h : o.Manned) :
    Draws o (extraction rate) fun _ o' ↦ Outline.Mined o o' := by
  apply Draws.withState
  rintro p htidy rfl
  refine Draws.mapM (I := Outline.Mined p.outline) ?_ (.refl h (typed_outline htidy))
  rintro e - o ho
  apply (extractOne_draws rate (h.mined ho)).bind
  intro taken o' ho'
  exact Draws.pure (ho.trans ho')

end Turn

end MiningGame
