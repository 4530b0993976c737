import MiningGame.Proofs.Outline
import MiningGame.Proofs.Snapshots

/-!
# Gains

Extraction moves units from deposits to characters. What a part of it does is told by two functions:
what each character gained of each resource (`Roster.Gained`), and how many units were taken from
each region (`Deposits.Drawn`). Both relations add up along the parts, and both say that all else is
as it was, except that some miners may have stopped.
-/

namespace MiningGame

/-! ## Gains of characters -/

/-- A character has gained units, and may have stopped mining a region that is over. -/
structure Character.Gained (gain : Resource → Nat) (Over : RegionId → Prop)
    (c c' : Character) : Prop where
  same : c' = { c with inventory := c'.inventory, mining := c'.mining }
  amount : ∀ x, (c'.inventory.amount x).toNat = (c.inventory.amount x).toNat + gain x
  mining : c'.mining = c.mining ∨
    ∃ region, c.mining = .mining region ∧ c'.mining = .idle ∧ Over region

/-- The characters of a roster have gained units, and some have stopped. -/
structure Roster.Gained (gain : CharacterId → Resource → Nat) (Over : RegionId → Prop)
    (r r' : Roster) : Prop where
  nextId : r'.nextId = r.nextId
  each : ∀ id, Option.Rel (Character.Gained (gain id) Over) (r.get? id) (r'.get? id)

namespace Character.Gained

variable {gain gain' : Resource → Nat} {Over Over' : RegionId → Prop} {c c' c'' : Character}

theorem refl (c : Character) : c.Gained (fun _ ↦ 0) Over c := ⟨rfl, fun _ ↦ rfl, .inl rfl⟩

theorem trans (h : c.Gained gain Over c') (h' : c'.Gained gain' Over' c'')
    (hover : ∀ region, Over region → Over' region) :
    c.Gained (fun x ↦ gain x + gain' x) Over' c'' where
  same := by
    rw [h'.same, h.same]
  amount := by
    intro x
    rw [h'.amount, h.amount, Nat.add_assoc]
  mining := by
    rcases h.mining with hstay | ⟨region, hmining, hidle, hregion⟩
    · rw [← hstay]
      exact h'.mining
    · rcases h'.mining with hstay' | ⟨region', hmining', -⟩
      · exact .inr ⟨region, hmining, hstay'.trans hidle, hover region hregion⟩
      · cases hidle.symm.trans hmining'

end Character.Gained

namespace Roster

variable {gain gain' : CharacterId → Resource → Nat} {Over Over' : RegionId → Prop}
  {r r' r'' : Roster} {id : CharacterId} {c c' : Character} {region : RegionId}

namespace Gained

theorem get? (h : r.Gained gain Over r') (found : r.get? id = some c) :
    ∃ c', r'.get? id = some c' ∧ c.Gained (gain id) Over c' := by
  have hrel := h.each id
  rw [found] at hrel
  cases hafter : r'.get? id with
  | none =>
    rw [hafter] at hrel
    cases hrel
  | some c' =>
    rw [hafter] at hrel
    cases hrel with
    | some hgained => exact ⟨c', rfl, hgained⟩

theorem get?_before (h : r.Gained gain Over r') (found' : r'.get? id = some c') :
    ∃ c, r.get? id = some c ∧ c.Gained (gain id) Over c' := by
  cases found : r.get? id with
  | none =>
    have hrel := h.each id
    rw [found, found'] at hrel
    cases hrel
  | some c =>
    obtain ⟨c'', found'', hgained⟩ := h.get? found
    cases found'.symm.trans found''
    exact ⟨c, rfl, hgained⟩

theorem of_map {f : Character → Character} (hnext : r'.nextId = r.nextId)
    (hget : ∀ id, r'.get? id = (r.get? id).map f)
    (hf : ∀ (id : CharacterId) (c : Character), c.Gained (gain id) Over (f c)) :
    r.Gained gain Over r' := by
  refine ⟨hnext, fun id ↦ ?_⟩
  rw [hget]
  cases r.get? id with
  | none => exact .none
  | some c => exact .some (hf id c)

theorem refl (r : Roster) : r.Gained (fun _ _ ↦ 0) Over r :=
  of_map rfl (fun _ ↦ Option.map_id'.symm) fun _ ↦ .refl

theorem trans (h : r.Gained gain Over r') (h' : r'.Gained gain' Over' r'')
    (hover : ∀ region, Over region → Over' region) :
    r.Gained (fun id x ↦ gain id x + gain' id x) Over' r'' := by
  refine ⟨h'.nextId.trans h.nextId, fun id ↦ ?_⟩
  have hrel := h.each id
  have hrel' := h'.each id
  generalize r.get? id = before at hrel ⊢
  generalize r'.get? id = mid at hrel hrel'
  generalize r''.get? id = after at hrel' ⊢
  cases hrel with
  | none =>
    cases hrel'
    exact .none
  | some hgained =>
    cases hrel' with
    | some hgained' => exact .some (hgained.trans hgained' hover)

end Gained

theorem setMining_nextId {status : MiningStatus} {out : Recorded Roster Unit}
    (h : r.setMining id status = .ok out) : out.state.nextId = r.nextId := by
  obtain ⟨c, -, h⟩ := bind_eq_ok_iff.1 h
  split at h <;> cases h <;> rfl

theorem stopAll_nextId {ids : List CharacterId} {out : Recorded Roster Unit}
    (h : r.stopAll ids = .ok out) : out.state.nextId = r.nextId := by
  induction ids generalizing r out with
  | nil =>
    cases h
    rfl
  | cons id rest ih =>
    obtain ⟨one, hone, h⟩ := bind_eq_ok_iff.1 h
    obtain ⟨others, hothers, h⟩ := bind_eq_ok_iff.1 h
    cases h
    exact (ih hothers).trans (setMining_nextId hone)

theorem credit_gained {resource : Resource} {amount : UInt64} {out : Recorded Roster Unit}
    (h : r.credit id resource amount = .ok out) :
    r.Gained (fun id' x ↦ if id' = id then units resource amount x else 0) Over out.state := by
  by_cases hzero : amount = 0
  · rw [credit, if_pos hzero] at h
    cases h
    simp only [hzero, units_zero, ite_self]
    exact .refl r
  · rw [credit, if_neg hzero] at h
    obtain ⟨c, hfind, h⟩ := bind_eq_ok_iff.1 h
    obtain ⟨inventory, hadd, h⟩ := bind_eq_ok_iff.1 h
    obtain ⟨total, hsum, rfl⟩ := (Inventory.add_eq_ok_iff hzero).1 hadd
    cases h
    have found := find_eq_ok_iff.1 hfind
    refine ⟨rfl, fun id' ↦ ?_⟩
    rw [get?_store]
    by_cases hid : id' = id
    · rw [if_pos hid, hid, found]
      refine .some ⟨rfl, fun x ↦ ?_, .inl rfl⟩
      rw [if_pos rfl]
      exact Bundle.amount_withAmount_add hsum x
    · simp only [if_neg hid]
      exact (Gained.refl r).each id'

theorem stopMining_gained {out : Recorded Roster Unit} (h : r.stopMining id = .ok out)
    (region : RegionId)
    (hover : ∀ c, r.get? id = some c → c.mining = .mining region ∧ Over region) :
    r.Gained (fun _ _ ↦ 0) Over out.state := by
  refine ⟨setMining_nextId h, fun id' ↦ ?_⟩
  rw [get?_setMining h]
  split
  · next hid =>
    rw [hid]
    cases found : r.get? id with
    | none => exact .none
    | some c =>
      obtain ⟨hmining, hregion⟩ := hover c found
      exact .some ⟨rfl, fun _ ↦ rfl, .inr ⟨region, hmining, rfl, hregion⟩⟩
  · exact (Gained.refl r).each id'

theorem stopRegion_gained {out : Recorded Roster (List CharacterId)} (hr : r.WellFormed)
    (h : r.stopRegion region = .ok out) (hover : Over region) :
    r.Gained (fun _ _ ↦ 0) Over out.state := by
  refine .of_map ?_ (get?_stopRegion hr h) fun _ c ↦ ?_
  · obtain ⟨stopped, hstopped, h⟩ := bind_eq_ok_iff.1 h
    cases h
    exact stopAll_nextId hstopped
  · split
    · next hmining => exact ⟨rfl, fun _ ↦ rfl, .inr ⟨region, hmining, rfl, hover⟩⟩
    · exact .refl c

theorem mining_ne_of_stopRegion {out : Recorded Roster (List CharacterId)} (hr : r.WellFormed)
    (h : r.stopRegion region = .ok out) (found : out.state.get? id = some c) :
    c.mining ≠ .mining region := by
  rw [get?_stopRegion hr h] at found
  obtain ⟨before, -, rfl⟩ := Option.map_eq_some_iff.1 found
  split
  · exact nofun
  · assumption

end Roster

/-! ## Units drawn from deposits -/

namespace RegionRecord

variable {record : RegionRecord} {a b : UInt64}

theorem Typed.without_zero (h : record.Typed) : record.without 0 = record := by
  rcases record with ⟨resource, remaining, prospection⟩
  have hnone : resource = none ↔ remaining = 0 := typed_iff.1 h
  by_cases hzero : remaining = 0
  · simp [without, hzero, hnone.2 hzero]
  · simp [without, hzero]

theorem Typed.without (h : record.Typed) (ha : a.toNat ≤ record.remaining.toNat) :
    (record.without a).Typed := by
  cases hresource : record.resource with
  | some resource => exact typed_without (by rw [hresource]; rfl) a
  | none =>
    have hzero : a = 0 := by
      rw [(typed_iff.1 h).1 hresource, UInt64.toNat_zero] at ha
      exact Word.eq_zero_of_toNat (Nat.le_zero.1 ha)
    rw [hzero, h.without_zero]
    exact h

theorem without_without (h : a.toNat + b.toNat ≤ record.remaining.toNat) :
    (record.without a).without b = record.without (a + b) := by
  have hfits := record.remaining.toNat_lt_size
  have hsum : (a + b).toNat = a.toNat + b.toNat := Word.toNat_add_of_lt (by omega)
  have hone : (record.remaining - a).toNat = record.remaining.toNat - a.toNat :=
    Word.toNat_sub_of_le (by omega)
  have hleft : record.remaining - a - b = record.remaining - (a + b) := by
    apply UInt64.toNat_inj.1
    rw [Word.toNat_sub_of_le (by omega), hone, Word.toNat_sub_of_le (by omega), hsum]
    omega
  have hgone : record.remaining - a = 0 → record.remaining - (a + b) = 0 := by
    intro hzero
    have hnat := congrArg UInt64.toNat hzero
    rw [hone, UInt64.toNat_zero] at hnat
    apply Word.eq_zero_of_toNat
    rw [Word.toNat_sub_of_le (by omega), hsum]
    omega
  simp only [RegionRecord.without, hleft]
  by_cases hzero : record.remaining - (a + b) = 0
  · simp [hzero]
  · simp [hzero, mt hgone hzero]

end RegionRecord

namespace Deposits

/-- The type of what a region holds. -/
def type? (d : Deposits) (region : RegionId) : Option Resource := (d.resource? region).map (·.1)

/-- From each region some of its units were taken. -/
structure Drawn (taken : RegionId → Nat) (d d' : Deposits) : Prop where
  prospected : d'.prospected = d.prospected
  record? : ∀ region, ∃ n : UInt64, n.toNat = taken region ∧
    n.toNat ≤ (d.remaining region).toNat ∧
    d'.record? region = (d.record? region).map fun record ↦ record.without n

variable {taken taken' : RegionId → Nat} {d d' d'' : Deposits} {region : RegionId}
  {record : RegionRecord}

theorem Typed.remaining_eq (hd : d.Typed) (h : d.record? region = some record) :
    d.remaining region = record.remaining := by
  have hnone := RegionRecord.typed_iff.1 (hd region record h)
  unfold remaining resource?
  rw [h, Option.bind_some]
  cases hresource : record.resource with
  | none => simp [RegionRecord.deposit?, hresource, hnone.1 hresource]
  | some resource => simp [RegionRecord.deposit?, hresource]

theorem remaining_of_unknown (h : d.record? region = none) : d.remaining region = 0 := by
  unfold remaining resource?
  rw [h]
  rfl

theorem type?_eq_none_iff (hd : d.Typed) : d.type? region = none ↔ d.remaining region = 0 := by
  rw [hd.remaining_eq_zero_iff, type?, Option.map_eq_none_iff]

theorem type?_of_record? (h : d.record? region = some record) :
    d.type? region = record.resource := by
  unfold type? resource?
  rw [h, Option.bind_some]
  unfold RegionRecord.deposit?
  cases record.resource <;> rfl

namespace Drawn

theorem typed (hd : d.Typed) (h : d.Drawn taken d') : d'.Typed := by
  intro region r hr
  obtain ⟨n, -, hle, hrecord⟩ := h.record? region
  obtain ⟨record, hbefore, rfl⟩ := Option.map_eq_some_iff.1 (hrecord.symm.trans hr)
  rw [hd.remaining_eq hbefore] at hle
  exact (hd region record hbefore).without hle

theorem remaining (hd : d.Typed) (h : d.Drawn taken d') (region : RegionId) :
    (d'.remaining region).toNat + taken region = (d.remaining region).toNat := by
  obtain ⟨n, hn, hle, hrecord⟩ := h.record? region
  cases hbefore : d.record? region with
  | none =>
    rw [hbefore] at hrecord
    rw [remaining_of_unknown hbefore, UInt64.toNat_zero] at hle
    rw [remaining_of_unknown hbefore, remaining_of_unknown hrecord, UInt64.toNat_zero]
    omega
  | some record =>
    rw [hbefore] at hrecord
    rw [hd.remaining_eq hbefore] at hle
    have hleft : (record.without n).remaining.toNat = record.remaining.toNat - n.toNat :=
      Word.toNat_sub_of_le hle
    rw [hd.remaining_eq hbefore, (h.typed hd).remaining_eq hrecord, hleft]
    omega

/-- The type stays as long as something is left. -/
theorem type? (h : d.Drawn taken d') (hd : d.Typed) (hleft : d'.remaining region ≠ 0) :
    d'.type? region = d.type? region := by
  obtain ⟨n, hn, hle, hrecord⟩ := h.record? region
  cases hbefore : d.record? region with
  | none =>
    rw [hbefore] at hrecord
    exact absurd (remaining_of_unknown hrecord) hleft
  | some record =>
    rw [hbefore] at hrecord
    rw [(h.typed hd).remaining_eq hrecord] at hleft
    rw [type?_of_record? hbefore, type?_of_record? hrecord]
    exact if_neg hleft

theorem refl (hd : d.Typed) : d.Drawn (fun _ ↦ 0) d := by
  refine ⟨rfl, fun region ↦ ⟨0, rfl, Nat.zero_le _, ?_⟩⟩
  cases hrecord : d.record? region with
  | none => rfl
  | some record => rw [Option.map_some, (hd region record hrecord).without_zero]

theorem trans (hd : d.Typed) (h : d.Drawn taken d') (h' : d'.Drawn taken' d'') :
    d.Drawn (fun region ↦ taken region + taken' region) d'' := by
  refine ⟨h'.prospected.trans h.prospected, fun region ↦ ?_⟩
  have hleft := h.remaining hd region
  obtain ⟨n, hn, hle, hrecord⟩ := h.record? region
  obtain ⟨n', hn', hle', hrecord'⟩ := h'.record? region
  have hfits := (d.remaining region).toNat_lt_size
  have hsum : (n + n').toNat = n.toNat + n'.toNat := Word.toNat_add_of_lt (by omega)
  refine ⟨n + n', by omega, by omega, ?_⟩
  rw [hrecord', hrecord, Option.map_map]
  cases hbefore : d.record? region with
  | none => rfl
  | some record =>
    rw [hd.remaining_eq hbefore] at hleft
    rw [Option.map_some, Option.map_some, Function.comp_apply,
      RegionRecord.without_without (by omega)]

theorem congr (h : d.Drawn taken d') (heq : ∀ region, taken region = taken' region) :
    d.Drawn taken' d' := funext heq ▸ h

end Drawn

/-- Extraction takes what there is, up to the rate, and answers its type. -/
theorem extract_drawn (hd : d.Typed) (region : RegionId) (rate : UInt64) :
    (d.extract region rate).answer =
        (d.type? region).map (fun resource ↦ (resource, min rate (d.remaining region))) ∧
      d.Drawn (fun r ↦ if r = region then min rate.toNat (d.remaining region).toNat else 0)
        (d.extract region rate).state := by
  have hself : min rate.toNat (d.remaining region).toNat = 0 →
      d.Drawn (fun r ↦ if r = region then min rate.toNat (d.remaining region).toNat else 0) d := by
    intro hzero
    simp only [hzero, ite_self]
    exact .refl hd
  unfold extract
  cases hrecord : d.record? region with
  | none =>
    have hnothing := remaining_of_unknown hrecord
    have htype := (type?_eq_none_iff hd).2 hnothing
    rw [htype]
    exact ⟨rfl, hself (by simp [hnothing])⟩
  | some record =>
    have htype := type?_of_record? hrecord
    have hremaining := hd.remaining_eq hrecord
    cases hresource : record.resource with
    | none =>
      have hnothing := (type?_eq_none_iff hd).1 (htype.trans hresource)
      rw [htype, hresource]
      simp only [hresource]
      exact ⟨rfl, hself (by simp [hnothing])⟩
    | some resource =>
      rw [htype, hresource, hremaining]
      simp only [hresource, Option.map_some]
      have htaken := Word.toNat_min rate record.remaining
      by_cases hzero : min rate record.remaining = 0
      · rw [if_pos hzero, hzero]
        rw [hzero, UInt64.toNat_zero] at htaken
        rw [hremaining] at hself
        exact ⟨rfl, hself htaken.symm⟩
      · rw [if_neg hzero]
        refine ⟨rfl, rfl, fun r ↦ ?_⟩
        rw [record?_insert]
        by_cases hr : r = region
        · refine ⟨min rate record.remaining, ?_, ?_, ?_⟩
          · rw [if_pos hr, htaken]
          · rw [hr, hremaining, htaken]
            exact Nat.min_le_right _ _
          · rw [hr, Function.update_self, hrecord, Option.map_some]
        · simp only [if_neg hr, Function.update_of_ne hr]
          exact (Drawn.refl hd).record? r

end Deposits

end MiningGame
