import MiningGame.Proofs.Totals

/-!
# The audit

The audit of any totals, be they sums of a state or not, finds exactly the resources for which the
equation between the four sums fails over the natural numbers (`mem_keys_imbalances_iff`). Where the
resources of a state balance, every sum of the audit is a word and is the total over the natural
numbers, so the audit finds nothing (`GameState.Balanced.audit`).
-/

namespace MiningGame

/-- How much of a resource is in a list of amounts. -/
def unitsIn (r : Resource) (amounts : List (Resource × UInt64)) : Nat :=
  (amounts.map fun e ↦ units e.1 e.2 r).sum

theorem unitsIn_cons (r resource : Resource) (x : UInt64) (rest : List (Resource × UInt64)) :
    unitsIn r ((resource, x) :: rest) = units resource x r + unitsIn r rest := rfl

theorem unitsIn_append (r : Resource) (xs ys : List (Resource × UInt64)) :
    unitsIn r (xs ++ ys) = unitsIn r xs + unitsIn r ys := by
  unfold unitsIn
  rw [List.map_append, List.sum_append]

theorem unitsIn_flatMap {α : Type} (r : Resource) (g : α → List (Resource × UInt64))
    (l : List α) : unitsIn r (l.flatMap g) = (l.map fun x ↦ unitsIn r (g x)).sum := by
  induction l with
  | nil => rfl
  | cons x rest ih => rw [List.flatMap_cons, unitsIn_append, ih, List.map_cons, List.sum_cons]

namespace Bundle

theorem amount_insert (b : Bundle) (resource r : Resource) (x : UInt64) :
    amount (b.insert resource x) r = if r = resource then x else b.amount r := by
  unfold amount
  rw [Table.get?_insert]
  by_cases hr : r = resource
  · rw [if_pos (rank_inj.2 hr), if_pos hr]
    rfl
  · rw [if_neg (mt rank_inj.1 hr), if_neg hr]

theorem amount_insert_add {b : Bundle} {resource : Resource} {x total : UInt64}
    (h : Word.add? (b.amount resource) x = some total) (r : Resource) :
    (amount (b.insert resource total) r).toNat = (b.amount r).toNat + units resource x r := by
  rw [amount_insert]
  by_cases hr : r = resource
  · rw [if_pos hr, hr, units_self]
    exact (Word.add?_eq_some_iff.1 h).symm
  · rw [if_neg hr, units_of_ne hr]
    rfl

theorem unitsIn_of_ascending (r : Resource) {entries : List (Resource × UInt64)}
    (h : Ascending entries) : unitsIn r entries = ((Table.lookUp r entries).getD 0).toNat := by
  induction entries with
  | nil => rfl
  | cons e rest ih =>
    obtain ⟨k, x⟩ := e
    obtain ⟨hhead, hrest⟩ := List.pairwise_cons.1 h
    rw [unitsIn_cons, ih hrest, Table.lookUp]
    by_cases hr : r = k
    · subst hr
      have hnone : Table.lookUp r rest = none := Table.lookUp_eq_none_of_lt hhead
      rw [if_pos rfl, hnone, units_self]
      exact Nat.add_zero _
    · rw [if_neg (mt rank_inj.1 hr), units_of_ne hr, Nat.zero_add]

theorem unitsIn_entries (r : Resource) (b : Bundle) : unitsIn r b.entries = (b.amount r).toNat :=
  unitsIn_of_ascending r b.ascending

/-- Amounts whose sums are words can be tallied, and the tally is their sum. -/
theorem tallyAll?_eq_some {b : Bundle} {amounts : List (Resource × UInt64)}
    (hfits : ∀ r, (b.amount r).toNat + unitsIn r amounts < UInt64.size) :
    ∃ b', tallyAll? b amounts = some b' ∧
      ∀ r, (b'.amount r).toNat = (b.amount r).toNat + unitsIn r amounts := by
  induction amounts generalizing b with
  | nil => exact ⟨b, rfl, fun r ↦ rfl⟩
  | cons e rest ih =>
    obtain ⟨resource, x⟩ := e
    have hfirst : (b.amount resource).toNat + x.toNat < UInt64.size := by
      have hall := hfits resource
      rw [unitsIn_cons, units_self] at hall
      omega
    obtain ⟨total, htotal⟩ := Word.exists_add? hfirst
    have hamount := amount_insert_add htotal
    obtain ⟨b', htally, hb'⟩ := ih (b := b.insert resource total) fun r ↦ by
      have hall := hfits r
      rw [unitsIn_cons] at hall
      rw [hamount]
      omega
    refine ⟨b', ?_, fun r ↦ ?_⟩
    · have hstep : tally? b resource x = some (b.insert resource total) := by
        unfold tally?
        rw [htotal]
        rfl
      unfold tallyAll? at htally ⊢
      rw [List.foldlM_cons]
      simp only [hstep]
      exact htally
    · rw [hb', hamount, unitsIn_cons]
      omega

theorem tallyAll?_empty {amounts : List (Resource × UInt64)} {total : Resource → Nat}
    (htotal : ∀ r, unitsIn r amounts = total r) (hfits : ∀ r, total r < UInt64.size) :
    ∃ b, tallyAll? ∅ amounts = some b ∧ ∀ r, (b.amount r).toNat = total r := by
  have hempty : ∀ r, (amount ∅ r).toNat + unitsIn r amounts < UInt64.size := by
    intro r
    rw [htotal, amount_empty, UInt64.toNat_zero, Nat.zero_add]
    exact hfits r
  obtain ⟨b, htally, hb⟩ := tallyAll?_eq_some hempty
  refine ⟨b, htally, fun r ↦ ?_⟩
  rw [hb, htotal, amount_empty, UInt64.toNat_zero, Nat.zero_add]

end Bundle

theorem Deposits.unitsIn_remainingAmounts (d : Deposits) (r : Resource) :
    unitsIn r d.remainingAmounts = d.remainingOf r := by
  unfold remainingAmounts remainingOf Table.total Table.values
  induction d.regions.entries with
  | nil => rfl
  | cons e rest ih =>
    rw [List.map_cons, List.map_cons, List.sum_cons, ← ih]
    unfold RegionRecord.holds
    cases hresource : e.2.resource with
    | none => simp [RegionRecord.deposit?, hresource]
    | some resource =>
      have hdeposit : e.2.deposit? = some (resource, e.2.remaining) := by
        unfold RegionRecord.deposit?
        rw [hresource]
        rfl
      rw [List.filterMap_cons_some hdeposit, unitsIn_cons]
      unfold units
      simp only [hresource, Option.some.injEq]

theorem Roster.unitsIn_carriedAmounts (roster : Roster) (r : Resource) :
    unitsIn r roster.carriedAmounts = roster.carriedOf r := by
  unfold carriedAmounts carriedOf Table.total toList Table.values
  rw [unitsIn_flatMap, List.map_map]
  simp only [Bundle.unitsIn_entries, Function.comp_def]

theorem GroundLoot.unitsIn_amounts (l : GroundLoot) (r : Resource) :
    unitsIn r l.amounts = l.lyingOf r := by
  unfold amounts lyingOf Table.total Table.values
  rw [unitsIn_flatMap, List.map_map]
  simp only [Bundle.unitsIn_entries, Function.comp_def]

/-! ## What the audit finds -/

namespace ResourceTotals

variable {t : ResourceTotals} {r : Resource}

/-- What was ever prospected of a resource remains in deposits, is carried or lies on the ground.
The sum may be larger than every word. -/
def BalancesAt (t : ResourceTotals) (r : Resource) : Prop :=
  (t.prospected.amount r).toNat =
    (t.remaining.amount r).toNat + (t.carried.amount r).toNat + (t.loot.amount r).toNat

theorem imbalance?_eq_none_iff {prospected remaining carried loot : UInt64} :
    imbalance? prospected remaining carried loot = none ↔
      prospected.toNat = remaining.toNat + carried.toNat + loot.toNat := by
  unfold imbalance?
  cases hdiff : Word.sub? prospected remaining with
  | none =>
    have hless := Word.sub?_eq_none_iff.1 hdiff
    simp only [reduceCtorEq, false_iff]
    omega
  | some minedOut =>
    have hmined := Word.sub?_eq_some_iff.1 hdiff
    cases hsum : Word.add? carried loot with
    | none =>
      -- No word is as large as what is held, so this is not what was mined out either.
      have hover := Word.add?_eq_none_iff.1 hsum
      have hlt := minedOut.toNat_lt_size
      simp only [reduceCtorEq, false_iff]
      omega
    | some held =>
      have hheld := Word.add?_eq_some_iff.1 hsum
      simp only [ite_eq_left_iff, reduceCtorEq, imp_false, not_not, ← UInt64.toNat_inj]
      omega

theorem imbalanceOf?_eq_none_iff : t.imbalanceOf? r = none ↔ t.BalancesAt r :=
  imbalance?_eq_none_iff

theorem mem_listed_iff : r ∈ t.listed ↔ t.prospected.contains r = true ∨
    t.remaining.contains r = true ∨ t.carried.contains r = true ∨ t.loot.contains r = true := by
  unfold listed
  simp [Resource.mem_all, or_assoc]

/-- A resource that no bundle lists balances, with four zero amounts. -/
theorem balancesAt_of_not_listed (h : r ∉ t.listed) : t.BalancesAt r := by
  have hzero : ∀ b : Bundle, ¬ b.contains r = true → b.amount r = 0 := by
    intro b hb
    unfold Table.contains at hb
    rw [Option.not_isSome_iff_eq_none] at hb
    rw [Bundle.amount, hb, Option.getD_none]
  simp only [mem_listed_iff, not_or] at h
  obtain ⟨hprospected, hremaining, hcarried, hloot⟩ := h
  unfold BalancesAt
  rw [hzero _ hprospected, hzero _ hremaining, hzero _ hcarried, hzero _ hloot]
  rfl

theorem get?_imbalances (t : ResourceTotals) (r : Resource) :
    t.imbalances.get? r = t.imbalanceOf? r := by
  have hkeys : (t.listed.filterMap fun r ↦ (t.imbalanceOf? r).map fun i ↦ (r, i)).map (·.1) =
      t.listed.filter fun r ↦ (t.imbalanceOf? r).isSome := by
    rw [List.map_filterMap, ← List.filterMap_eq_filter]
    congr 1
    funext r
    cases himbalance : t.imbalanceOf? r <;> simp [Option.guard, himbalance]
  have hnodup : t.listed.Nodup := List.Pairwise.filter _ (by decide : Resource.all.Nodup)
  refine Option.ext fun i ↦ ?_
  unfold imbalances
  rw [Table.get?_ofList_eq_some_iff (hkeys ▸ List.Pairwise.filter _ hnodup), List.mem_filterMap]
  constructor
  · rintro ⟨r', -, hr'⟩
    obtain ⟨i', hi', heq⟩ := Option.map_eq_some_iff.1 hr'
    cases heq
    exact hi'
  · intro hi
    refine ⟨r, ?_, by rw [hi, Option.map_some]⟩
    refine Classical.by_contradiction fun hlisted ↦ ?_
    rw [imbalanceOf?_eq_none_iff.2 (balancesAt_of_not_listed hlisted)] at hi
    cases hi

theorem mem_keys_imbalances_iff : r ∈ t.imbalances.keys ↔ ¬ t.BalancesAt r := by
  rw [Table.mem_keys_iff, get?_imbalances, ← imbalanceOf?_eq_none_iff]
  cases t.imbalanceOf? r <;> simp

theorem audit_eq_none_iff (height : UInt64) : t.audit height = none ↔ ∀ r, t.BalancesAt r := by
  have hempty : t.imbalances.isEmpty = true ↔ ∀ r, t.BalancesAt r := by
    rw [Table.isEmpty_iff]
    constructor
    · intro h r
      rw [← imbalanceOf?_eq_none_iff, ← get?_imbalances, h, Table.get?_empty]
    · intro h
      refine Table.ext_get? fun r ↦ ?_
      rw [get?_imbalances, imbalanceOf?_eq_none_iff.2 (h r), Table.get?_empty]
  rw [← hempty, audit, ite_eq_left_iff]
  simp

end ResourceTotals

/-! ## The audit of a state -/

/-- Where the resources balance the audit passes. -/
theorem GameState.Balanced.audit {s : GameState} (h : s.Balanced) (height : UInt64) :
    ∃ totals, s.totals? = some totals ∧ totals.audit height = none := by
  have hlt := s.deposits.prospectedOf_lt
  obtain ⟨prospected, hprospected, heq₁⟩ := Bundle.tallyAll?_empty
    (fun r ↦ Bundle.unitsIn_entries r s.deposits.prospected) hlt
  obtain ⟨remaining, hremaining, heq₂⟩ := Bundle.tallyAll?_empty
    s.deposits.unitsIn_remainingAmounts fun r ↦ by have := h r; have := hlt r; omega
  obtain ⟨carried, hcarried, heq₃⟩ := Bundle.tallyAll?_empty
    s.roster.unitsIn_carriedAmounts fun r ↦ by have := h r; have := hlt r; omega
  obtain ⟨loot, hloot, heq₄⟩ := Bundle.tallyAll?_empty
    s.loot.unitsIn_amounts fun r ↦ by have := h r; have := hlt r; omega
  refine ⟨⟨prospected, remaining, carried, loot⟩, ?_, ?_⟩
  · unfold totals?
    simp only [hprospected, hremaining, hcarried, hloot]
    rfl
  · refine (ResourceTotals.audit_eq_none_iff height).2 fun r ↦ ?_
    unfold ResourceTotals.BalancesAt
    rw [heq₁, heq₂, heq₃, heq₄]
    exact h r

end MiningGame
