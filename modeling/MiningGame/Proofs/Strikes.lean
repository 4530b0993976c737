import MiningGame.Proofs.Acting

/-!
# Races for a region

When the moves of a block are carried out by number, a region without deposit goes to the first
character that asks for it, and to nobody if nothing is to be found there
(`Outline.mem_strikes_iff`). Whether a character asks can be told before the first move, since moves
leave the stances of others alone. The records, the totals and what each character is told follow
from the strikes.
-/

namespace MiningGame.Outline

variable {o : Outline} {prospector : Prospector} {id k : CharacterId} {m : CharacterMove}
  {st : Stance} {region : RegionId} {x y : Strike} {e : CharacterId × CharacterMove}
  {es : List (CharacterId × CharacterMove)}

/-- The strikes of some moves that are carried out in turn. -/
def strikes (prospector : Prospector) : Outline → List (CharacterId × CharacterMove) → List Strike
  | _, [] => []
  | o, e :: rest =>
    (o.strike? prospector e.1 e.2).toList ++ strikes prospector (o.moved prospector e.1 e.2) rest

/-- A character stands in a region, goes nowhere and is to prospect. -/
def Asks (o : Outline) (region : RegionId) (id : CharacterId) (m : CharacterMove) : Prop :=
  ∃ st, o.stance? id = some st ∧ o.site st = region ∧ st.waypoints = [] ∧ m.searches = true

/-- The first of some characters that ask for a vacant region finds something there. -/
structure Strikes (o : Outline) (prospector : Prospector) (es : List (CharacterId × CharacterMove))
    (x : Strike) : Prop where
  vacant : o.stocked x.region = false
  asks : ∃ m, (x.character, m) ∈ es ∧ o.Asks x.region x.character m
  least : ∀ e ∈ es, o.Asks x.region e.1 e.2 → rank x.character ≤ rank e.1
  found : prospector.deposit? x.region o.height = some x.find

/-- The record that a strike leaves. -/
def deposit (o : Outline) (x : Strike) : RegionRecord :=
  ⟨some x.find.resource, x.find.amount, ⟨x.character, o.height⟩⟩

/-! ### One move -/

theorem strike?_eq_some_iff : o.strike? prospector id m = some x ↔ x.character = id ∧
    o.Asks x.region id m ∧ o.stocked x.region = false ∧
      prospector.deposit? x.region o.height = some x.find := by
  unfold strike? Asks search?
  constructor
  · intro h
    split at h
    · next hm =>
      obtain ⟨st, hst, h⟩ := Option.bind_eq_some_iff.1 h
      split at h
      · next hopen =>
        obtain ⟨find, hfind, rfl⟩ := Option.map_eq_some_iff.1 h
        exact ⟨rfl, ⟨st, hst, rfl, hopen.1, hm⟩, hopen.2, hfind⟩
      · cases h
    · cases h
  · rintro ⟨rfl, ⟨st, hst, hsite, hway, hm⟩, hopen, hfind⟩
    rw [if_pos hm, hst, Option.bind_some, hsite, if_pos ⟨hway, hopen⟩, hfind]
    rfl

@[simp] theorem moved_height : (o.moved prospector id m).height = o.height := by
  unfold moved
  cases o.strike? prospector id m <;> rfl

@[simp] theorem moved_grid : (o.moved prospector id m).grid = o.grid := by
  unfold moved
  cases o.strike? prospector id m <;> rfl

@[simp] theorem moved_taken : (o.moved prospector id m).taken = o.taken := by
  unfold moved
  cases o.strike? prospector id m <;> rfl

theorem moved_stance? : (o.moved prospector id m).stance? =
    Function.update o.stance? id ((o.stance? id).map (o.told m)) := by
  unfold moved
  cases o.strike? prospector id m <;> rfl

theorem moved_record?_of_none (h : o.strike? prospector id m = none) :
    (o.moved prospector id m).record? = o.record? := by
  unfold moved
  rw [h]
  rfl

theorem moved_record?_of_some (h : o.strike? prospector id m = some x) :
    (o.moved prospector id m).record? =
      Function.update o.record? x.region (some (o.deposit x)) := by
  unfold moved
  rw [h]
  rfl

theorem moved_prospected (r : Resource) : (o.moved prospector id m).prospected r =
    o.prospected r + ((o.strike? prospector id m).toList.map fun x ↦
      units x.find.resource x.find.amount r).sum := by
  unfold moved
  cases o.strike? prospector id m with
  | none => rfl
  | some x => simp [struck, settled]

theorem stocked_moved_iff : (o.moved prospector id m).stocked region = true ↔
    o.stocked region = true ∨ ∃ x, o.strike? prospector id m = some x ∧ x.region = region := by
  cases h : o.strike? prospector id m with
  | none => simp [stocked, moved_record?_of_none h]
  | some x =>
    by_cases hregion : region = x.region
    · simp [stocked, moved_record?_of_some h, hregion, deposit]
    · simp [stocked, moved_record?_of_some h, hregion, Ne.symm hregion]

/-- Moves leave it to others what they ask for. -/
theorem moved_asks_iff {m' : CharacterMove} (h : k ≠ id) :
    (o.moved prospector id m).Asks region k m' ↔ o.Asks region k m' := by
  simp [Asks, moved_stance?, site, h]

/-! ### All moves -/

section Order

variable {rest : List (CharacterId × CharacterMove)} (hes : Ascending (e :: rest))
include hes

theorem fst_ne_of_mem {e' : CharacterId × CharacterMove} (he' : e' ∈ rest) : e'.1 ≠ e.1 := by
  intro h
  have hlt := (List.pairwise_cons.1 hes).1 e' he'
  rw [h] at hlt
  exact Nat.lt_irrefl _ hlt

theorem Strikes.of_strike? (h : o.strike? prospector e.1 e.2 = some x) :
    o.Strikes prospector (e :: rest) x := by
  obtain ⟨hid, hasks, hvacant, hfound⟩ := strike?_eq_some_iff.1 h
  refine ⟨hvacant, ⟨e.2, by simp [hid], hid ▸ hasks⟩, ?_, hfound⟩
  intro e' he' _
  rw [hid]
  rcases List.mem_cons.1 he' with rfl | he'
  · exact Nat.le_refl _
  · exact Nat.le_of_lt ((List.pairwise_cons.1 hes).1 e' he')

theorem Strikes.of_moved (h : (o.moved prospector e.1 e.2).Strikes prospector rest x) :
    o.Strikes prospector (e :: rest) x := by
  obtain ⟨hvacant, ⟨m, hm, hasks⟩, hleast, hfound⟩ := h
  rw [moved_height] at hfound
  rw [← Bool.not_eq_true, stocked_moved_iff, not_or, Bool.not_eq_true] at hvacant
  obtain ⟨hvacant, hnone⟩ := hvacant
  rw [moved_asks_iff (fst_ne_of_mem hes hm)] at hasks
  refine ⟨hvacant, ⟨m, List.mem_cons_of_mem _ hm, hasks⟩, ?_, hfound⟩
  intro e' he' hasks'
  rcases List.mem_cons.1 he' with rfl | he'
  · -- If the first one had asked, it would have struck here itself.
    refine absurd ⟨⟨x.region, e'.1, x.find⟩, ?_, rfl⟩ hnone
    exact strike?_eq_some_iff.2 ⟨rfl, hasks', hvacant, hfound⟩
  · exact hleast e' he' ((moved_asks_iff (fst_ne_of_mem hes he')).2 hasks')

/-- A strike is that of the first move, or one of the others after it. -/
theorem Strikes.first_or_later (h : o.Strikes prospector (e :: rest) x) :
    o.strike? prospector e.1 e.2 = some x ∨
      (o.moved prospector e.1 e.2).Strikes prospector rest x := by
  obtain ⟨hvacant, ⟨m, hm, hasks⟩, hleast, hfound⟩ := h
  rcases List.mem_cons.1 hm with rfl | hm
  · exact .inl (strike?_eq_some_iff.2 ⟨rfl, hasks, hvacant, hfound⟩)
  · right
    have hnone : ¬ o.Asks x.region e.1 e.2 := by
      intro hfirst
      have hle := hleast e List.mem_cons_self hfirst
      have hlt := (List.pairwise_cons.1 hes).1 _ hm
      simp only at hlt
      omega
    refine ⟨?_, ⟨m, hm, (moved_asks_iff (fst_ne_of_mem hes hm)).2 hasks⟩, ?_, ?_⟩
    · rw [← Bool.not_eq_true, stocked_moved_iff, not_or, Bool.not_eq_true]
      refine ⟨hvacant, ?_⟩
      rintro ⟨y, hy, hregion⟩
      obtain ⟨-, hfirst, -⟩ := strike?_eq_some_iff.1 hy
      exact hnone (hregion ▸ hfirst)
    · intro e' he' hasks'
      rw [moved_asks_iff (fst_ne_of_mem hes he')] at hasks'
      exact hleast e' (List.mem_cons_of_mem _ he') hasks'
    · rw [moved_height]
      exact hfound

end Order

/-- The strikes are those of the first ones that ask. -/
theorem mem_strikes_iff (hes : Ascending es) :
    x ∈ strikes prospector o es ↔ o.Strikes prospector es x := by
  induction es generalizing o with
  | nil =>
    constructor
    · intro h
      cases h
    · rintro ⟨-, ⟨m, hm, -⟩, -, -⟩
      cases hm
  | cons e rest ih =>
    obtain ⟨-, hrest⟩ := List.pairwise_cons.1 hes
    rw [strikes, List.mem_append, Option.mem_toList, ih hrest]
    constructor
    · rintro (hfirst | hlater)
      · exact .of_strike? hes hfirst
      · exact .of_moved hes hlater
    · exact Strikes.first_or_later hes

/-- Among the moves of characters before some number, the strikes are those before it. -/
theorem strikes_filter_iff :
    o.Strikes prospector (es.filter fun e ↦ rank e.1 < rank k) x ↔
      o.Strikes prospector es x ∧ rank x.character < rank k := by
  constructor
  · rintro ⟨hvacant, ⟨m, hm, hasks⟩, hleast, hfound⟩
    obtain ⟨hm, hlt⟩ := List.mem_filter.1 hm
    have hlt : rank x.character < rank k := of_decide_eq_true hlt
    refine ⟨⟨hvacant, ⟨m, hm, hasks⟩, ?_, hfound⟩, hlt⟩
    intro e he hasks'
    by_cases hbefore : rank e.1 < rank k
    · exact hleast e (List.mem_filter.2 ⟨he, decide_eq_true hbefore⟩) hasks'
    · omega
  · rintro ⟨⟨hvacant, ⟨m, hm, hasks⟩, hleast, hfound⟩, hlt⟩
    refine ⟨hvacant, ⟨m, List.mem_filter.2 ⟨hm, decide_eq_true hlt⟩, hasks⟩, ?_, hfound⟩
    intro e he hasks'
    exact hleast e (List.mem_filter.1 he).1 hasks'

@[simp] theorem movedAll_grid : (o.movedAll prospector es).grid = o.grid := by
  induction es generalizing o with
  | nil => rfl
  | cons e rest ih => exact ih.trans moved_grid

@[simp] theorem movedAll_taken : (o.movedAll prospector es).taken = o.taken := by
  induction es generalizing o with
  | nil => rfl
  | cons e rest ih => exact ih.trans moved_taken

theorem movedAll_record?_of_not (h : ∀ x ∈ strikes prospector o es, x.region ≠ region) :
    (o.movedAll prospector es).record? region = o.record? region := by
  induction es generalizing o with
  | nil => rfl
  | cons e rest ih =>
    rw [strikes, List.forall_mem_append] at h
    refine (ih h.2).trans ?_
    cases hfirst : o.strike? prospector e.1 e.2 with
    | none => rw [moved_record?_of_none hfirst]
    | some x =>
      have hne := h.1 x (by simp [hfirst])
      rw [moved_record?_of_some hfirst, Function.update_of_ne (Ne.symm hne)]

/-- Where somebody strikes, the record tells it. -/
theorem movedAll_record?_of_mem (hes : Ascending es) (h : x ∈ strikes prospector o es) :
    (o.movedAll prospector es).record? x.region = some (o.deposit x) := by
  induction es generalizing o with
  | nil => cases h
  | cons e rest ih =>
    obtain ⟨-, hrest⟩ := List.pairwise_cons.1 hes
    rw [strikes, List.mem_append, Option.mem_toList] at h
    rcases h with hfirst | hlater
    · have hnone : ∀ y ∈ strikes prospector (o.moved prospector e.1 e.2) rest,
          y.region ≠ x.region := by
        intro y hy hregion
        have hstocked := stocked_moved_iff.2 (.inr ⟨x, hfirst, hregion.symm⟩)
        rw [((mem_strikes_iff hrest).1 hy).vacant] at hstocked
        cases hstocked
      refine (movedAll_record?_of_not hnone).trans ?_
      rw [moved_record?_of_some hfirst, Function.update_self]
    · refine (ih hrest hlater).trans ?_
      simp [deposit]

theorem movedAll_prospected (r : Resource) : (o.movedAll prospector es).prospected r =
    o.prospected r + ((strikes prospector o es).map fun x ↦
      units x.find.resource x.find.amount r).sum := by
  induction es generalizing o with
  | nil => rfl
  | cons e rest ih =>
    refine ih.trans ?_
    rw [moved_prospected, strikes, List.map_append, List.sum_append, Nat.add_assoc]

theorem strikes_nodup (hes : Ascending es) : (strikes prospector o es).Nodup := by
  induction es generalizing o with
  | nil => exact List.nodup_nil
  | cons e rest ih =>
    obtain ⟨-, hrest⟩ := List.pairwise_cons.1 hes
    refine List.nodup_append.2 ⟨?_, ih hrest, ?_⟩
    · cases o.strike? prospector e.1 e.2 <;> simp
    · rintro x hx y hy rfl
      have hstocked := stocked_moved_iff.2 (.inr ⟨x, Option.mem_toList.1 hx, rfl⟩)
      rw [((mem_strikes_iff hrest).1 hy).vacant] at hstocked
      cases hstocked

/-- What has a deposit afterwards had one before, or somebody has struck there. -/
theorem stocked_movedAll_iff (hes : Ascending es) :
    (o.movedAll prospector es).stocked region = true ↔
      o.stocked region = true ∨ ∃ x, o.Strikes prospector es x ∧ x.region = region := by
  by_cases hstruck : ∃ x ∈ strikes prospector o es, x.region = region
  · obtain ⟨x, hx, rfl⟩ := hstruck
    have hrecord := movedAll_record?_of_mem hes hx
    simp only [stocked, hrecord, deposit, Option.any_some, Option.isSome_some, true_iff]
    exact .inr ⟨x, (mem_strikes_iff hes).1 hx, rfl⟩
  · have hnone : ∀ x ∈ strikes prospector o es, x.region ≠ region := by
      intro x hx hregion
      exact hstruck ⟨x, hx, hregion⟩
    have hsame : (o.movedAll prospector es).stocked region = o.stocked region := by
      unfold stocked
      rw [movedAll_record?_of_not hnone]
    rw [hsame]
    constructor
    · exact .inl
    · rintro (hbefore | ⟨x, hx, hregion⟩)
      · exact hbefore
      · exact absurd ⟨x, (mem_strikes_iff hes).2 hx, hregion⟩ hstruck

/-! ### What a character is told -/

/-- The outline that a character finds at its turn. -/
def atTurn (o : Outline) (prospector : Prospector) (es : List (CharacterId × CharacterMove))
    (id : CharacterId) : Outline :=
  o.movedAll prospector (es.filter fun e ↦ rank e.1 < rank id)

@[simp] theorem map_told_empty (st? : Option Stance) : st?.map (o.told .empty) = st? := by
  cases st? <;> rfl

/-- Every character is told what its own move says. -/
theorem movedAll_stance? (hes : Ascending es) : (o.movedAll prospector es).stance? id =
    (o.stance? id).map ((o.atTurn prospector es id).told
      ((Table.lookUp id es).getD .empty)) := by
  induction es generalizing o with
  | nil => simp [movedAll, Table.lookUp]
  | cons e rest ih =>
    obtain ⟨hhead, hrest⟩ := List.pairwise_cons.1 hes
    refine (ih hrest).trans ?_
    by_cases hlt : rank e.1 < rank id
    · have hne : id ≠ e.1 := by
        rintro rfl
        exact Nat.lt_irrefl _ hlt
      have hturn : o.atTurn prospector (e :: rest) id =
          (o.moved prospector e.1 e.2).atTurn prospector rest id := by
        simp only [atTurn, List.filter_cons, hlt, decide_true, if_true]
        rfl
      rw [hturn, moved_stance?, Function.update_of_ne hne, Table.lookUp,
        if_neg (mt rank_inj.1 hne)]
    · have hnone : Table.lookUp id rest = none := by
        apply Table.lookUp_eq_none_of_lt
        intro e' he'
        have hlt' := hhead e' he'
        omega
      have hturn : o.atTurn prospector (e :: rest) id = o := by
        have hnil : rest.filter (fun e' ↦ rank e'.1 < rank id) = [] := by
          apply List.filter_eq_nil_iff.2
          intro e' he'
          have hlt' := hhead e' he'
          simp only [decide_eq_true_eq]
          omega
        simp only [atTurn, List.filter_cons, hlt, decide_false, hnil]
        rfl
      rw [hnone, Option.getD_none, map_told_empty, hturn, moved_stance?, Table.lookUp]
      by_cases hid : id = e.1
      · subst hid
        simp
      · rw [Function.update_of_ne hid, if_neg (mt rank_inj.1 hid), hnone, Option.getD_none,
          map_told_empty]

end MiningGame.Outline
