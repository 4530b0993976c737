import MiningGame.Proofs.Audit

/-!
# Tallies

Amounts are tallied in words. A tally is refused exactly if a sum over the natural numbers is no
word, and otherwise lists every resource that came up, with its sum (`Bundle.tallyAll?_eq_some_iff`).
So it depends on the amounts alone and not on their order. For the totals of a state this means that
they are exact or refused, and what the audit makes of them is exact as well.
-/

namespace MiningGame

/-! ## Tallies -/

namespace Bundle

variable {b b' : Bundle} {resource r : Resource} {x : UInt64}
  {amounts amounts' : List (Resource × UInt64)}

/-- A bundle is determined by what it lists and by the amounts. -/
theorem eq_of_contains_of_amount (hcontains : ∀ r, b.contains r = b'.contains r)
    (hamount : ∀ r, b.amount r = b'.amount r) : b = b' := by
  refine Table.ext_get? fun r ↦ ?_
  have hlisted := hcontains r
  have hsame := hamount r
  unfold Table.contains at hlisted
  unfold amount at hsame
  cases hget : b.get? r <;> cases hget' : b'.get? r <;> simp_all

theorem contains_insert (b : Bundle) (resource r : Resource) (x : UInt64) :
    (b.insert resource x).contains r = true ↔ r = resource ∨ b.contains r = true := by
  unfold Table.contains
  rw [Table.get?_insert]
  by_cases hr : r = resource
  · rw [if_pos (rank_inj.2 hr)]
    simp [hr]
  · rw [if_neg (mt rank_inj.1 hr)]
    simp [hr]

theorem tallyAll?_cons (b : Bundle) (resource : Resource) (x : UInt64)
    (rest : List (Resource × UInt64)) :
    tallyAll? b ((resource, x) :: rest) = (b.tally? resource x).bind fun b' ↦ tallyAll? b' rest :=
  rfl

/-- What a tally holds and lists. -/
theorem of_tallyAll? (h : tallyAll? b amounts = some b') (r : Resource) :
    (b'.amount r).toNat = (b.amount r).toNat + unitsIn r amounts ∧
      (b'.contains r = true ↔ b.contains r = true ∨ r ∈ amounts.map (·.1)) := by
  induction amounts generalizing b with
  | nil =>
    cases h
    exact ⟨rfl, by simp⟩
  | cons e rest ih =>
    obtain ⟨resource, x⟩ := e
    rw [tallyAll?_cons] at h
    obtain ⟨mid, hfirst, hrest⟩ := Option.bind_eq_some_iff.1 h
    obtain ⟨total, hsum, rfl⟩ := Option.map_eq_some_iff.1 hfirst
    obtain ⟨hamount, hcontains⟩ := ih hrest
    have hmid := amount_insert_add hsum r
    rw [unitsIn_cons]
    refine ⟨by omega, ?_⟩
    rw [hcontains, contains_insert, List.map_cons, List.mem_cons, or_assoc, or_left_comm]

theorem tallyAll?_eq_some_iff : tallyAll? b amounts = some b' ↔ ∀ r,
    (b'.amount r).toNat = (b.amount r).toNat + unitsIn r amounts ∧
      (b'.contains r = true ↔ b.contains r = true ∨ r ∈ amounts.map (·.1)) := by
  refine ⟨of_tallyAll?, fun h ↦ ?_⟩
  have hfits : ∀ r, (b.amount r).toNat + unitsIn r amounts < UInt64.size := fun r ↦
    (h r).1 ▸ UInt64.toNat_lt_size _
  obtain ⟨b'', htally, -⟩ := tallyAll?_eq_some hfits
  have hsame : b'' = b' := by
    refine eq_of_contains_of_amount (fun r ↦ ?_) fun r ↦ ?_
    · rw [Bool.eq_iff_iff, (of_tallyAll? htally r).2, (h r).2]
    · rw [← UInt64.toNat_inj, (of_tallyAll? htally r).1, (h r).1]
  rw [htally, hsame]

theorem tallyAll?_eq_none_iff : tallyAll? b amounts = none ↔
    ∃ r, Word.largest.toNat < (b.amount r).toNat + unitsIn r amounts := by
  constructor
  · intro hnone
    refine Classical.by_contradiction fun hall ↦ ?_
    have hfits : ∀ r, (b.amount r).toNat + unitsIn r amounts < UInt64.size := by
      intro r
      rw [Word.size_eq, Nat.lt_succ_iff, ← Nat.not_lt]
      exact fun hr ↦ hall ⟨r, hr⟩
    obtain ⟨b', htally, -⟩ := tallyAll?_eq_some hfits
    cases hnone.symm.trans htally
  · rintro ⟨r, hr⟩
    cases htally : tallyAll? b amounts with
    | none => rfl
    | some b' =>
      have hamount := (of_tallyAll? htally r).1
      have hle := Word.toNat_le_largest (b'.amount r)
      omega

/-- A tally does not depend on the order of the amounts. -/
theorem tallyAll?_perm (h : amounts.Perm amounts') : tallyAll? b amounts = tallyAll? b amounts' := by
  refine Option.ext fun b' ↦ ?_
  have hunits : ∀ r, unitsIn r amounts = unitsIn r amounts' := fun r ↦ (h.map _).sum_nat
  have hlisted : ∀ r, r ∈ amounts.map (·.1) ↔ r ∈ amounts'.map (·.1) := fun r ↦
    (h.map _).mem_iff
  simp only [tallyAll?_eq_some_iff, hunits, hlisted]

end Bundle

/-! ## The totals of a state -/

namespace Bundle

variable {amounts : List (Resource × UInt64)} {total : Resource → Nat}

theorem tallyAll?_empty_eq_none_iff (htotal : ∀ r, unitsIn r amounts = total r) :
    tallyAll? ∅ amounts = none ↔ ∃ r, Word.largest.toNat < total r := by
  rw [tallyAll?_eq_none_iff]
  simp only [htotal, amount_empty, UInt64.toNat_zero, Nat.zero_add]

theorem amount_of_tallyAll?_empty {b : Bundle} (htotal : ∀ r, unitsIn r amounts = total r)
    (h : tallyAll? ∅ amounts = some b) (r : Resource) : (b.amount r).toNat = total r := by
  have hamount := (of_tallyAll? h r).1
  rwa [htotal, amount_empty, UInt64.toNat_zero, Nat.zero_add] at hamount

end Bundle

namespace GameState

variable {s : GameState} {t : ResourceTotals}

theorem totals?_eq_some_iff : s.totals? = some t ↔
    Bundle.tallyAll? ∅ s.deposits.prospected.entries = some t.prospected ∧
    Bundle.tallyAll? ∅ s.deposits.remainingAmounts = some t.remaining ∧
    Bundle.tallyAll? ∅ s.roster.carriedAmounts = some t.carried ∧
    Bundle.tallyAll? ∅ s.loot.amounts = some t.loot := by
  constructor
  · intro h
    obtain ⟨prospected, hprospected, h⟩ := Option.bind_eq_some_iff.1 h
    obtain ⟨remaining, hremaining, h⟩ := Option.bind_eq_some_iff.1 h
    obtain ⟨carried, hcarried, h⟩ := Option.bind_eq_some_iff.1 h
    obtain ⟨loot, hloot, h⟩ := Option.bind_eq_some_iff.1 h
    cases h
    exact ⟨hprospected, hremaining, hcarried, hloot⟩
  · rintro ⟨hprospected, hremaining, hcarried, hloot⟩
    unfold totals?
    rw [hprospected, hremaining, hcarried, hloot]
    rfl

/-- What was ever prospected is kept as one word per resource, so its tally is never refused. -/
theorem exists_prospected (s : GameState) :
    ∃ b, Bundle.tallyAll? ∅ s.deposits.prospected.entries = some b := by
  obtain ⟨b, htally, -⟩ := Bundle.tallyAll?_empty
    (fun r ↦ Bundle.unitsIn_entries r s.deposits.prospected) s.deposits.prospectedOf_lt
  exact ⟨b, htally⟩

theorem totals?_eq_none_iff : s.totals? = none ↔ ∃ r,
    Word.largest.toNat < s.deposits.remainingOf r ∨ Word.largest.toNat < s.roster.carriedOf r ∨
      Word.largest.toNat < s.loot.lyingOf r := by
  obtain ⟨prospected, hprospected⟩ := s.exists_prospected
  simp only [exists_or, ← Bundle.tallyAll?_empty_eq_none_iff s.deposits.unitsIn_remainingAmounts,
    ← Bundle.tallyAll?_empty_eq_none_iff s.roster.unitsIn_carriedAmounts,
    ← Bundle.tallyAll?_empty_eq_none_iff s.loot.unitsIn_amounts]
  cases hremaining : Bundle.tallyAll? ∅ s.deposits.remainingAmounts with
  | none => simp [totals?, hremaining]
  | some remaining =>
    cases hcarried : Bundle.tallyAll? ∅ s.roster.carriedAmounts with
    | none => simp [totals?, hremaining, hcarried]
    | some carried =>
      cases hloot : Bundle.tallyAll? ∅ s.loot.amounts with
      | none => simp [totals?, hremaining, hcarried, hloot]
      | some loot => simp [totals?, hprospected, hremaining, hcarried, hloot]

/-- The totals of a state are its sums over the natural numbers. -/
theorem amounts_of_totals? (h : s.totals? = some t) (r : Resource) :
    (t.prospected.amount r).toNat = s.deposits.prospectedOf r ∧
    (t.remaining.amount r).toNat = s.deposits.remainingOf r ∧
    (t.carried.amount r).toNat = s.roster.carriedOf r ∧
    (t.loot.amount r).toNat = s.loot.lyingOf r := by
  obtain ⟨hprospected, hremaining, hcarried, hloot⟩ := totals?_eq_some_iff.1 h
  exact ⟨Bundle.amount_of_tallyAll?_empty
      (fun r ↦ Bundle.unitsIn_entries r s.deposits.prospected) hprospected r,
    Bundle.amount_of_tallyAll?_empty s.deposits.unitsIn_remainingAmounts hremaining r,
    Bundle.amount_of_tallyAll?_empty s.roster.unitsIn_carriedAmounts hcarried r,
    Bundle.amount_of_tallyAll?_empty s.loot.unitsIn_amounts hloot r⟩

end GameState

/-- The totals of any state are refused exactly if a sum over its regions, characters or piles is no
word, and are the exact sums otherwise; no tally depends on the order of its amounts. The audit of
any totals passes exactly if every resource balances over the natural numbers, and otherwise lists
exactly the resources that do not. -/
theorem totals_and_audit_exact :
    (∀ s : GameState,
      (s.totals? = none ↔ ∃ r, Word.largest.toNat < s.deposits.remainingOf r ∨
        Word.largest.toNat < s.roster.carriedOf r ∨ Word.largest.toNat < s.loot.lyingOf r) ∧
      ∀ t, s.totals? = some t → ∀ r,
        (t.prospected.amount r).toNat = s.deposits.prospectedOf r ∧
        (t.remaining.amount r).toNat = s.deposits.remainingOf r ∧
        (t.carried.amount r).toNat = s.roster.carriedOf r ∧
        (t.loot.amount r).toNat = s.loot.lyingOf r) ∧
    (∀ (b : Bundle) (amounts amounts' : List (Resource × UInt64)), amounts.Perm amounts' →
      b.tallyAll? amounts = b.tallyAll? amounts') ∧
    ∀ (t : ResourceTotals) (height : UInt64),
      (t.audit height = none ↔ ∀ r, t.BalancesAt r) ∧
      ∀ a, t.audit height = some a →
        a.height = height ∧ ∀ r, r ∈ a.imbalances.keys ↔ ¬ t.BalancesAt r := by
  refine ⟨fun s ↦ ?_, fun b amounts amounts' h ↦ Bundle.tallyAll?_perm h, fun t height ↦ ?_⟩
  · exact ⟨GameState.totals?_eq_none_iff, fun t h ↦ GameState.amounts_of_totals? h⟩
  · refine ⟨ResourceTotals.audit_eq_none_iff height, fun a h ↦ ?_⟩
    unfold ResourceTotals.audit at h
    split at h
    · cases h
    · cases h
      exact ⟨rfl, fun r ↦ ResourceTotals.mem_keys_imbalances_iff⟩

end MiningGame
