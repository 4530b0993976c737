import MiningGame.Region.Prospecting

/-!
# Finds stay in range

A prospector draws the place of a resource in its list and the distance of a size from its least
one. Both are remainders, by the length of the list and by the number of sizes, so the draw falls
into the list and into the range whatever words come up, also where the range is that of all words
and the number of sizes is none. Nothing is found only where there is nothing to find
(`SeededProspector.prospect_between`).
-/

namespace MiningGame.SeededProspector

/-- No checked step of drawing a find from two words fails. -/
structure DrawsThrough (p : SeededProspector) (first second : UInt64) : Prop where
  /-- The remainder by the length of the list is a place in it. -/
  place : ∃ place resource, p.place first = some place ∧ p.resources[place]? = some resource
  span : ∃ span, Word.sub? p.most p.least = some span
  /-- The number of sizes, where it is a word, can be divided by. -/
  width : ∀ span width, Word.sub? p.most p.least = some span → Word.add? span 1 = some width →
    ∃ rest, Word.rem? second width = some rest
  sum : ∃ offset amount, p.offset second = some offset ∧ Word.add? p.least offset = some amount

variable {p : SeededProspector}

/-! ## The steps of a draw -/

theorem exists_place (hresources : p.resources ≠ []) (drawn : UInt64) : ∃ place resource,
    p.place drawn = some place ∧ p.resources[place]? = some resource ∧
      resource ∈ p.resources := by
  have hlength : 0 < p.resources.length := List.length_pos_iff.2 hresources
  have hplace : drawn.toNat % p.resources.length < p.resources.length := Nat.mod_lt _ hlength
  exact ⟨_, _, if_neg (Nat.ne_of_gt hlength), List.getElem?_eq_getElem hplace,
    List.getElem_mem hplace⟩

theorem exists_span (h : p.least.toNat ≤ p.most.toNat) : ∃ span,
    Word.sub? p.most p.least = some span ∧ span.toNat + p.least.toNat = p.most.toNat := by
  obtain ⟨span, hspan⟩ := Word.exists_sub? h
  exact ⟨span, hspan, Word.sub?_eq_some_iff.1 hspan⟩

/-- The distance from the least size is the remainder by the number of sizes. -/
theorem exists_offset (h : p.least.toNat ≤ p.most.toNat) (drawn : UInt64) : ∃ offset,
    p.offset drawn = some offset ∧
      offset.toNat = drawn.toNat % (p.most.toNat - p.least.toNat + 1) := by
  obtain ⟨span, hsub, hspan⟩ := exists_span h
  rw [offset, hsub, Option.bind_eq_bind, Option.bind_some, ← hspan, Nat.add_sub_cancel]
  cases hadd : Word.add? span 1 with
  | some width =>
    have hwidth : span.toNat + 1 = width.toNat := Word.add?_eq_some_iff.1 hadd
    refine ⟨drawn % width, Word.rem?_eq_some (Word.add?_ne_zero hadd (by decide)), ?_⟩
    rw [hwidth, UInt64.toNat_mod]
  | none =>
    have hall : UInt64.size ≤ span.toNat + 1 := Word.add?_eq_none_iff.1 hadd
    exact ⟨drawn, rfl, (Nat.mod_eq_of_lt (Nat.lt_of_lt_of_le drawn.toNat_lt_size hall)).symm⟩

/-- The least size and the distance from it never add up to more than the greatest size. -/
theorem exists_sum (h : p.least.toNat ≤ p.most.toNat) (drawn : UInt64) : ∃ offset amount,
    p.offset drawn = some offset ∧ Word.add? p.least offset = some amount ∧
      amount.toNat = p.least.toNat + drawn.toNat % (p.most.toNat - p.least.toNat + 1) := by
  obtain ⟨offset, hoffset, hvalue⟩ := exists_offset h drawn
  have hlt : offset.toNat < p.most.toNat - p.least.toNat + 1 := by
    rw [hvalue]
    exact Nat.mod_lt _ (Nat.succ_pos _)
  have hmost := p.most.toNat_lt_size
  obtain ⟨amount, hamount⟩ := Word.exists_add? (a := p.least) (b := offset) (by omega)
  refine ⟨offset, amount, hoffset, hamount, ?_⟩
  rw [← hvalue, ← Word.add?_eq_some_iff.1 hamount]

theorem drawsThrough (h : p.least.toNat ≤ p.most.toNat) (hresources : p.resources ≠ [])
    (first second : UInt64) : p.DrawsThrough first second where
  place := by
    obtain ⟨place, resource, hplace, hresource, -⟩ := exists_place hresources first
    exact ⟨place, resource, hplace, hresource⟩
  span := by
    obtain ⟨span, hspan, -⟩ := exists_span h
    exact ⟨span, hspan⟩
  width span width _ hwidth :=
    ⟨_, Word.rem?_eq_some (Word.add?_ne_zero hwidth (by decide))⟩
  sum := by
    obtain ⟨offset, amount, hoffset, hamount, -⟩ := exists_sum h second
    exact ⟨offset, amount, hoffset, hamount⟩

/-! ## Finds -/

theorem prospect_eq_none (h : p.resources = [] ∨ p.most = 0) (region : RegionId)
    (height : UInt64) : p.prospect region height = none := by
  have hnothing : p.resources.length = 0 ∨ p.most = 0 := h.imp_left List.length_eq_zero_iff.2
  rw [prospect, if_pos hnothing]
  rfl

theorem toNat_lifted (amount : UInt64) :
    (if amount = 0 then 1 else amount).toNat = max 1 amount.toNat := by
  split
  · next hzero =>
    rw [hzero]
    rfl
  · next hpos =>
    have hne : amount.toNat ≠ 0 := mt Word.eq_zero_of_toNat hpos
    exact (Nat.max_eq_right (Nat.one_le_iff_ne_zero.2 hne)).symm

/-- Where there is something to find it is found, and it is in the list and in the range. -/
theorem exists_find (h : p.least.toNat ≤ p.most.toNat) (hresources : p.resources ≠ [])
    (hmost : p.most ≠ 0) (region : RegionId) (height : UInt64) : ∃ find,
    p.prospect region height = some find ∧ find.resource ∈ p.resources ∧
      max 1 p.least.toNat ≤ find.amount.toNat ∧ find.amount.toNat ≤ p.most.toNat := by
  obtain ⟨first, hfirst⟩ : ∃ w, Mixer.draw p.seed region.value height = w := ⟨_, rfl⟩
  obtain ⟨second, hsecond⟩ : ∃ w, Mixer.draw first region.value height = w := ⟨_, rfl⟩
  obtain ⟨place, resource, hplace, hresource, hmem⟩ := exists_place hresources first
  obtain ⟨offset, amount, hoffset, hamount, hvalue⟩ := exists_sum h second
  have hsome : ¬ (p.resources.length = 0 ∨ p.most = 0) :=
    not_or.2 ⟨mt List.length_eq_zero_iff.1 hresources, hmost⟩
  have hfind : p.prospect region height =
      some ⟨resource, if amount = 0 then 1 else amount⟩ := by
    rw [prospect, if_neg hsome, hfirst]
    simp only [Option.bind_eq_bind, Option.bind_some, hsecond, hplace, hresource, hoffset, hamount]
    rfl
  refine ⟨_, hfind, hmem, ?_⟩
  have hlt := Nat.mod_lt second.toNat (Nat.add_one_pos (p.most.toNat - p.least.toNat))
  have hpos : p.most.toNat ≠ 0 := mt Word.eq_zero_of_toNat hmost
  dsimp only
  rw [toNat_lifted, hvalue]
  omega

theorem prospect_eq_none_iff (h : p.least.toNat ≤ p.most.toNat) (region : RegionId)
    (height : UInt64) :
    p.prospect region height = none ↔ p.resources = [] ∨ p.most.toNat = 0 := by
  constructor
  · intro hnone
    refine Classical.byContradiction fun hsome ↦ ?_
    rw [not_or] at hsome
    have hmost : p.most ≠ 0 := fun hzero ↦ hsome.2 (congrArg UInt64.toNat hzero)
    obtain ⟨find, hfind, -⟩ := exists_find h hsome.1 hmost region height
    rw [hnone] at hfind
    cases hfind
  · intro hnothing
    exact prospect_eq_none (hnothing.imp_right Word.eq_zero_of_toNat) region height

theorem range_of_prospect (h : p.least.toNat ≤ p.most.toNat) {region : RegionId}
    {height : UInt64} {find : Find} (hfind : p.prospect region height = some find) :
    find.resource ∈ p.resources ∧
      max 1 p.least.toNat ≤ find.amount.toNat ∧ find.amount.toNat ≤ p.most.toNat := by
  have hsome : ¬ (p.resources = [] ∨ p.most = 0) := fun hnothing ↦ by
    rw [prospect_eq_none hnothing] at hfind
    cases hfind
  rw [not_or] at hsome
  obtain ⟨find', hfind', hrange⟩ := exists_find h hsome.1 hsome.2 region height
  obtain rfl := Option.some.inj (hfind.symm.trans hfind')
  exact hrange

/-! ## The prospector between two bounds -/

theorem between_bounds (seed : UInt64) (resources : List Resource) (a b : UInt64) :
    (between seed resources a b).resources = resources ∧
      (between seed resources a b).least.toNat = min a.toNat b.toNat ∧
      (between seed resources a b).most.toNat = max a.toNat b.toNat := by
  unfold between
  split
  · next hle =>
    rw [UInt64.le_iff_toNat_le] at hle
    exact ⟨rfl, (Nat.min_eq_left hle).symm, (Nat.max_eq_right hle).symm⟩
  · next hgt =>
    rw [UInt64.le_iff_toNat_le, Nat.not_le] at hgt
    have hle : b.toNat ≤ a.toNat := Nat.le_of_lt hgt
    exact ⟨rfl, (Nat.min_eq_right hle).symm, (Nat.max_eq_left hle).symm⟩

/-- A prospector between two bounds finds nothing exactly if it has no resources to draw from or
both bounds are zero. What it finds is one of its resources, at least one unit of it and no fewer
than the smaller bound, and no more than the larger bound. None of the checks on the way fails,
whatever words are drawn. -/
theorem prospect_between (seed : UInt64) (resources : List Resource) (a b : UInt64)
    (region : RegionId) (height : UInt64) :
    ((between seed resources a b).prospect region height = none ↔
      resources = [] ∨ max a.toNat b.toNat = 0) ∧
    (∀ find, (between seed resources a b).prospect region height = some find →
      find.resource ∈ resources ∧ max 1 (min a.toNat b.toNat) ≤ find.amount.toNat ∧
        find.amount.toNat ≤ max a.toNat b.toNat) ∧
    (resources ≠ [] → ∀ first second, (between seed resources a b).DrawsThrough first second) := by
  obtain ⟨hlist, hleast, hmost⟩ := between_bounds seed resources a b
  have hle : (between seed resources a b).least.toNat ≤
      (between seed resources a b).most.toNat := by omega
  refine ⟨?_, fun find hfind ↦ ?_, fun hresources first second ↦ ?_⟩
  · rw [prospect_eq_none_iff hle, hlist, hmost]
  · have hrange := range_of_prospect hle hfind
    rwa [hlist, hleast, hmost] at hrange
  · rw [← hlist] at hresources
    exact drawsThrough hle hresources first second

/-- The range of all words, given from above, has no number of sizes that is a word. -/
example : ((between 42 [.rawA, .rawB] Word.largest 0).prospect ⟨9⟩ 15).isSome := by decide

end MiningGame.SeededProspector
