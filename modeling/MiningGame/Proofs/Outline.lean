import Mathlib.Logic.Function.Basic
import MiningGame.Proofs.Balance
import MiningGame.Proofs.Tidy

/-!
# Outlines

Who mines and what regions hold depends on a part of the game only: where characters stand, where
they go and what they mine, and the records of regions. An outline is this part, as functions;
names, inventories and loot are left out. A turn draws an outline if its result has that outline
whenever it succeeds (`Turn.Draws`), and each operation on the tables changes the outline in a way
that needs no tables to be told.
-/

namespace MiningGame

/-! ## What is left out and what is kept -/

/-- Where a character stands, where it is going and what it mines. -/
structure Stance where
  position : Coord
  waypoints : List Coord
  mining : MiningStatus
  deriving DecidableEq

def Character.stance (c : Character) : Stance := ⟨c.position, c.waypoints, c.mining⟩

def Roster.stance? (r : Roster) (id : CharacterId) : Option Stance :=
  (r.get? id).map Character.stance

/-- The units that a delta records as extracted from a region. -/
def UndoDelta.taken (region : RegionId) : UndoDelta → Nat
  | regionExtracted region' _ amount => if region' = region then amount.toNat else 0
  | _ => 0

/-- The units that a block extracted from a region. -/
def BlockUndo.taken (undo : BlockUndo) (region : RegionId) : Nat :=
  (undo.deltas.map (UndoDelta.taken region)).sum

/-- What matters for mining in the middle of a block. -/
@[ext]
structure Outline where
  height : UInt64
  grid : Grid
  stance? : CharacterId → Option Stance
  record? : RegionId → Option RegionRecord
  prospected : Resource → Nat
  taken : RegionId → Nat

def Progress.outline (p : Progress) : Outline where
  height := p.undo.height
  grid := p.state.grid
  stance? := p.state.roster.stance?
  record? := p.state.deposits.record?
  prospected := p.state.deposits.prospectedOf
  taken := p.undo.taken

namespace Outline

variable {o : Outline} {id : CharacterId} {st : Stance} {region : RegionId}

/-- The region that a character stands in. -/
def site (o : Outline) (st : Stance) : RegionId := o.grid.regionAt st.position

/-- Whether a region has a deposit. -/
def stocked (o : Outline) (region : RegionId) : Bool :=
  (o.record? region).any fun record ↦ record.resource.isSome

def withStance (o : Outline) (id : CharacterId) (st : Stance) : Outline :=
  { o with stance? := Function.update o.stance? id (some st) }

def withRecord (o : Outline) (region : RegionId) (record : RegionRecord) : Outline :=
  { o with record? := Function.update o.record? region (some record) }

@[simp] theorem withStance_self (h : o.stance? id = some st) : o.withStance id st = o := by
  unfold withStance
  rw [← h, Function.update_eq_self]

theorem withRecord_self {record : RegionRecord} (h : o.record? region = some record) :
    o.withRecord region record = o := by
  unfold withRecord
  rw [← h, Function.update_eq_self]

theorem stocked_eq_true_iff :
    o.stocked region = true ↔ ∃ record, o.record? region = some record ∧
      record.resource.isSome := by
  simp [stocked, Option.any_eq_true]

/-- The outline after a deposit was found in a region. -/
def settled (o : Outline) (region : RegionId) (find : Find) (prospection : Prospection) :
    Outline :=
  { o.withRecord region ⟨some find.resource, find.amount, prospection⟩ with
    prospected := fun r ↦ o.prospected r + units find.resource find.amount r }

/-- The outline after units were taken from the deposit of a region. -/
def extracted (o : Outline) (region : RegionId) (record : RegionRecord) (taken : UInt64) :
    Outline :=
  { o.withRecord region (record.without taken) with
    taken := fun r ↦ o.taken r + if region = r then taken.toNat else 0 }

theorem extracted_zero {record : RegionRecord} (h : o.record? region = some record)
    (hleft : record.remaining ≠ 0) : o.extracted region record 0 = o := by
  have hrecord : record.without 0 = record := by simp [RegionRecord.without, hleft]
  unfold extracted
  rw [hrecord, withRecord_self h]
  simp

/-- The outline after all miners of a region have stopped. -/
def cleared (o : Outline) (region : RegionId) : Outline :=
  { o with stance? := fun id ↦ (o.stance? id).map fun st ↦
      if st.mining = .mining region then { st with mining := .idle } else st }

end Outline

theorem Deposits.stocked_outline (p : Progress) (region : RegionId) :
    p.outline.stocked region = (p.state.deposits.resource? region).isSome := by
  unfold Outline.stocked resource?
  change (p.state.deposits.record? region).any _ = _
  cases p.state.deposits.record? region with
  | none => rfl
  | some record => simp [RegionRecord.deposit?]

theorem Deposits.resource?_eq_none_iff (p : Progress) (region : RegionId) :
    p.state.deposits.resource? region = none ↔ p.outline.stocked region = false := by
  rw [stocked_outline, Option.isSome_eq_false_iff, Option.isNone_iff_eq_none]

namespace Turn

variable {α β : Type} {o : Outline} {t : Turn α} {Q Q' : α → Outline → Prop}
  {R : β → Outline → Prop} {id : CharacterId} {region : RegionId}

/-- From a tidy progress with an outline, a turn that succeeds leads to a tidy one whose outline
meets a condition. -/
def Draws (o : Outline) (t : Turn α) (Q : α → Outline → Prop) : Prop :=
  Contract (fun p ↦ p.state.Tidy ∧ p.outline = o) t (fun a p ↦ p.state.Tidy ∧ Q a p.outline)
    fun _ _ ↦ True

namespace Draws

theorem of_ok {p p' : Progress} {a : α} (ht : Draws p.outline t Q) (hp : p.state.Tidy)
    (h : t p = .ok a p') : p'.state.Tidy ∧ Q a p'.outline :=
  Contract.of_ok ht ⟨hp, rfl⟩ h

theorem pure {a : α} (h : Q a o) : Draws o (pure a) Q := by
  rintro p ⟨htidy, rfl⟩
  exact ⟨htidy, h⟩

theorem mono (ht : Draws o t Q) (hQ : ∀ a o', Q a o' → Q' a o') : Draws o t Q' :=
  Contract.mono ht (fun _ hp ↦ hp) (fun a _ hp ↦ ⟨hp.1, hQ a _ hp.2⟩) fun _ _ _ ↦ trivial

theorem bind {f : α → Turn β} (ht : Draws o t Q) (hf : ∀ a o', Q a o' → Draws o' (f a) R) :
    Draws o (t >>= f) R :=
  Contract.bind ht fun a p hp ↦ hf a p.outline hp.2 p ⟨hp.1, rfl⟩

/-- A turn that reads the state may rely on what the outline tells of it. -/
theorem withState {f : GameState → Turn α}
    (h : ∀ p : Progress, p.state.Tidy → p.outline = o → Draws p.outline (f p.state) Q) :
    Draws o (state >>= f) Q := by
  rintro p ⟨htidy, rfl⟩
  exact h p htidy rfl p ⟨htidy, rfl⟩

theorem withHeight {f : UInt64 → Turn α} (h : Draws o (f o.height) Q) :
    Draws o (height >>= f) Q := by
  rintro p ⟨htidy, rfl⟩
  exact h p ⟨htidy, rfl⟩

theorem withCharacter {f : Character → Turn α}
    (h : ∀ c, o.stance? id = some c.stance → Draws o (f c) Q) :
    Draws o (character id >>= f) Q := by
  rintro p ⟨htidy, rfl⟩
  cases found : p.state.roster.get? id with
  | none =>
    rw [bind_of_error (character_of_absent found)]
    trivial
  | some c =>
    have hstance : p.outline.stance? id = some c.stance := congrArg (Option.map _) found
    rw [bind_of_ok (character_of_get? found)]
    exact h c hstance p ⟨htidy, rfl⟩

/-- What every part of a list of turns keeps is kept by all of them. -/
theorem forM {I : Outline → Prop} {f : α → Turn Unit} {l : List α}
    (h : ∀ a ∈ l, ∀ o, I o → Draws o (f a) fun _ ↦ I) (ho : I o) :
    Draws o (l.forM f) fun _ ↦ I := by
  have hall : Contract (fun p : Progress ↦ p.state.Tidy ∧ I p.outline) (l.forM f)
      (fun _ p ↦ p.state.Tidy ∧ I p.outline) (fun _ _ ↦ True) :=
    Contract.forM fun a ha (p : Progress) hp ↦ h a ha p.outline hp.2 p ⟨hp.1, rfl⟩
  exact hall.mono (fun p hp ↦ ⟨hp.1, hp.2 ▸ ho⟩) (fun _ _ hp ↦ hp) fun _ _ _ ↦ trivial

theorem mapM {I : Outline → Prop} {f : α → Turn β} {l : List α}
    (h : ∀ a ∈ l, ∀ o, I o → Draws o (f a) fun _ ↦ I) (ho : I o) :
    Draws o (l.mapM f) fun _ ↦ I := by
  have hall : Contract (fun p : Progress ↦ p.state.Tidy ∧ I p.outline) (l.mapM f)
      (fun _ p ↦ p.state.Tidy ∧ I p.outline) (fun _ _ ↦ True) :=
    Contract.mapM fun a ha (p : Progress) hp ↦ h a ha p.outline hp.2 p ⟨hp.1, rfl⟩
  exact hall.mono (fun p hp ↦ ⟨hp.1, hp.2 ▸ ho⟩) (fun _ _ hp ↦ hp) fun _ _ _ ↦ trivial

theorem forM_self {f : α → Turn Unit} {l : List α}
    (h : ∀ a ∈ l, Draws o (f a) fun _ o' ↦ o' = o) : Draws o (l.forM f) fun _ o' ↦ o' = o := by
  refine forM (I := fun o' ↦ o' = o) ?_ rfl
  rintro a ha o rfl
  exact h a ha

/-- Turns that each change the outline by a function change it together by the fold of it. -/
theorem foldl {f : α → Turn Unit} {g : Outline → α → Outline} {l : List α}
    (h : ∀ a ∈ l, ∀ o, Draws o (f a) fun _ o' ↦ o' = g o a) :
    Draws o (l.forM f) fun _ o' ↦ o' = l.foldl g o := by
  induction l generalizing o with
  | nil => exact pure rfl
  | cons a rest ih =>
    apply (h a List.mem_cons_self o).bind
    rintro - o' rfl
    exact ih fun b hb ↦ h b (List.mem_cons_of_mem a hb)

end Draws

theorem Logs.draws (hlogs : Logs t)
    (h : ∀ p : Progress, p.state.Tidy → p.outline = o → ∀ a p', t p = .ok a p' → Q a p'.outline) :
    Draws o t Q := by
  rintro p ⟨htidy, houtline⟩
  cases hrun : t p with
  | ok a p' =>
    have hlogged := (hlogs p).of_ok (Logged.refl p) hrun
    exact ⟨hlogged.tidy htidy, h p htidy houtline a p' hrun⟩
  | error e p' => trivial

end Turn

/-! ## Operations on the roster -/

/-- Changes that each extract nothing extract nothing together. -/
theorem BlockUndo.taken_append {σ : Type} {R : σ → UndoDelta → σ → Prop} {x x' : σ}
    {δs : List UndoDelta} (h : History R x δs x')
    (hR : ∀ a δ b region, R a δ b → UndoDelta.taken region δ = 0) (undo : BlockUndo) :
    (undo.append δs).taken = undo.taken := by
  funext region
  have hnone : (δs.map (UndoDelta.taken region)).sum = 0 := by
    induction h with
    | nil => rfl
    | cons first _ ih => rw [List.map_cons, List.sum_cons, hR _ _ _ region first, ih]
  simp [taken, append, hnone]

namespace Roster

variable {r : Roster} {id : CharacterId} {region : RegionId}

theorem stance?_store (r : Roster) (id : CharacterId) (c : Character) :
    (r.store id c).stance? = Function.update r.stance? id (some c.stance) := by
  funext id'
  unfold stance?
  rw [get?_store, Function.update_apply]
  split <;> rfl

theorem stance?_of_get? {c : Character} (h : r.get? id = some c) :
    r.stance? id = some c.stance :=
  congrArg (Option.map Character.stance) h

theorem stance?_store_of_eq {c c' : Character} (h : r.get? id = some c)
    (hstance : c'.stance = c.stance) : (r.store id c').stance? = r.stance? := by
  rw [stance?_store, hstance, ← stance?_of_get? h, Function.update_eq_self]

/-- Replacing a part of a character changes its stance by a function. -/
theorem stance?_replace {β : Type} [DecidableEq β] (part : CharacterPart β) {value : β}
    {out : Recorded Roster Unit} (g : Stance → Stance)
    (hset : ∀ c, (part.set c value).stance = g c.stance)
    (hsame : ∀ c, part.get c = value → g c.stance = c.stance)
    (h : r.replace part id value = .ok out) : ∃ st, r.stance? id = some st ∧
      out.state.stance? = Function.update r.stance? id (some (g st)) := by
  obtain ⟨c, hfind, h⟩ := bind_eq_ok_iff.1 h
  have hc := stance?_of_get? (find_eq_ok_iff.1 hfind)
  refine ⟨c.stance, hc, ?_⟩
  split at h
  · next hvalue =>
    cases h
    rw [hsame c hvalue, ← hc, Function.update_eq_self]
  · cases h
    rw [stance?_store, hset]

theorem stance?_setMining {status : MiningStatus} {out : Recorded Roster Unit}
    (h : r.setMining id status = .ok out) : ∃ st, r.stance? id = some st ∧
      out.state.stance? = Function.update r.stance? id (some { st with mining := status }) :=
  stance?_replace .mining (fun st ↦ { st with mining := status }) (fun _ ↦ rfl)
    (fun _ hsame ↦ hsame ▸ rfl) h

theorem stance?_credit {resource : Resource} {amount : UInt64} {out : Recorded Roster Unit}
    (h : r.credit id resource amount = .ok out) : out.state.stance? = r.stance? := by
  unfold credit at h
  split at h
  · cases h
    rfl
  · obtain ⟨c, hfind, h⟩ := bind_eq_ok_iff.1 h
    obtain ⟨inventory, -, h⟩ := bind_eq_ok_iff.1 h
    cases h
    exact stance?_store_of_eq (find_eq_ok_iff.1 hfind) rfl

theorem stance?_debit {resource : Resource} {amount : UInt64} {out : Recorded Roster Unit}
    (h : r.debit id resource amount = .ok out) : out.state.stance? = r.stance? := by
  unfold debit at h
  split at h
  · cases h
    rfl
  · obtain ⟨c, hfind, h⟩ := bind_eq_ok_iff.1 h
    obtain ⟨inventory, -, h⟩ := bind_eq_ok_iff.1 h
    cases h
    exact stance?_store_of_eq (find_eq_ok_iff.1 hfind) rfl

theorem get?_setMining {status : MiningStatus} {out : Recorded Roster Unit}
    (h : r.setMining id status = .ok out) (id' : CharacterId) : out.state.get? id' =
      if id' = id then (r.get? id).map fun c ↦ { c with mining := status } else r.get? id' := by
  obtain ⟨c, hfind, h⟩ := bind_eq_ok_iff.1 h
  rw [find_eq_ok_iff.1 hfind, Option.map_some]
  split at h
  · next hsame =>
    cases h
    have hself : { c with mining := status } = c := by
      rw [← hsame]
      rfl
    rw [hself, ← get?_store, store_self (find_eq_ok_iff.1 hfind)]
  · cases h
    exact get?_store r id id' _

theorem get?_stopAll {ids : List CharacterId} {out : Recorded Roster Unit}
    (h : r.stopAll ids = .ok out) (id : CharacterId) : out.state.get? id =
      if id ∈ ids then (r.get? id).map fun c ↦ { c with mining := .idle } else r.get? id := by
  induction ids generalizing r out with
  | nil =>
    cases h
    simp
  | cons first rest ih =>
    obtain ⟨one, hone, h⟩ := bind_eq_ok_iff.1 h
    obtain ⟨others, hothers, h⟩ := bind_eq_ok_iff.1 h
    cases h
    rw [ih hothers, get?_setMining hone]
    by_cases hid : id = first
    · subst hid
      simp [Function.comp_def]
    · simp [hid]

theorem mem_minersOf_iff (hr : r.WellFormed) :
    id ∈ r.minersOf region ↔ ∃ st, r.stance? id = some st ∧ st.mining = .mining region := by
  unfold minersOf stance?
  constructor
  · intro h
    obtain ⟨c, hc, rfl⟩ := List.mem_map.1 h
    obtain ⟨hc, hmining⟩ := List.mem_filter.1 hc
    obtain ⟨⟨id, c'⟩, he, rfl⟩ := List.mem_map.1 hc
    have found : r.get? id = some c' := Table.get?_eq_some_iff.2 he
    refine ⟨c'.stance, ?_, of_decide_eq_true hmining⟩
    change (r.get? c'.id).map _ = _
    rw [hr.own id c' found, found]
    rfl
  · rintro ⟨st, hst, hmining⟩
    obtain ⟨c, found, rfl⟩ := Option.map_eq_some_iff.1 hst
    refine List.mem_map.2 ⟨c, List.mem_filter.2 ⟨?_, decide_eq_true hmining⟩, hr.own id c found⟩
    exact List.mem_map.2 ⟨(id, c), Table.get?_eq_some_iff.1 found, rfl⟩

/-- Stopping a region makes its miners idle and changes nothing else. -/
theorem get?_stopRegion {out : Recorded Roster (List CharacterId)} (hr : r.WellFormed)
    (h : r.stopRegion region = .ok out) (id : CharacterId) : out.state.get? id =
      (r.get? id).map fun c ↦
        if c.mining = .mining region then { c with mining := .idle } else c := by
  obtain ⟨stopped, hstopped, h⟩ := bind_eq_ok_iff.1 h
  cases h
  rw [get?_stopAll hstopped]
  cases found : r.get? id with
  | none => simp
  | some c =>
    have hmem : id ∈ r.minersOf region ↔ c.mining = .mining region := by
      rw [mem_minersOf_iff hr]
      simp [stance?, found, Character.stance]
    by_cases hmining : c.mining = .mining region <;> simp [hmem, hmining]

theorem stance?_stopRegion {out : Recorded Roster (List CharacterId)} (hr : r.WellFormed)
    (h : r.stopRegion region = .ok out) (id : CharacterId) : out.state.stance? id =
      (r.stance? id).map fun st ↦
        if st.mining = .mining region then { st with mining := .idle } else st := by
  unfold stance?
  rw [get?_stopRegion hr h, Option.map_map, Option.map_map]
  congr 1
  funext c
  simp only [Function.comp_apply, apply_ite Character.stance]
  rfl

end Roster

namespace Deposits

variable {d : Deposits} {region : RegionId}

theorem record?_insert (d : Deposits) (region : RegionId) (record : RegionRecord)
    (prospected : Bundle) : record? ⟨d.regions.insert region record, prospected⟩ =
      Function.update d.record? region (some record) := by
  funext region'
  unfold record?
  rw [Table.get?_insert, Function.update_apply]
  simp only [rank_inj]

theorem assign_ok {resource : Resource} {amount : UInt64} {prospection : Prospection}
    {out : Recorded Deposits Unit} (h : d.assign region resource amount prospection = .ok out) :
    d.resource? region = none ∧ amount ≠ 0 ∧
      out.state.record? =
        Function.update d.record? region (some ⟨some resource, amount, prospection⟩) ∧
      out.deltas = [.regionProspected region (d.record? region) resource amount] := by
  simp only [assign] at h
  split at h
  · cases h
  · next hvacant =>
    split at h
    · cases h
    · next hpositive =>
      split at h
      · cases h
      · cases h
        exact ⟨hvacant, hpositive, record?_insert _ _ _ _, rfl⟩

end Deposits

namespace Turn

variable {α β : Type} {o : Outline} {Q : α → Outline → Prop} {id : CharacterId}
  {region : RegionId}

/-- Operations on the roster extract nothing. -/
theorem taken_append_roster {f : Roster → Except CharacterError (Recorded Roster α)}
    (hlogs : Roster.Logs f) {r : Roster} {out : Recorded Roster α} (h : f r = .ok out)
    (undo : BlockUndo) : (undo.append out.deltas).taken = undo.taken :=
  BlockUndo.taken_append (hlogs r out h) (fun _ _ _ _ hchange ↦ by cases hchange <;> rfl) undo

theorem inRoster_draws {e : Recording CharacterError Roster α}
    {f : Roster → Except CharacterError (Recorded Roster α)} (he : e = .ofAnswer f)
    (hlogs : Roster.Logs f) (hf : ∀ s : GameState, s.Tidy → s.roster.stance? = o.stance? →
      ∀ out, f s.roster = .ok out → Q out.answer { o with stance? := out.state.stance? }) :
    Draws o (inRoster e) Q := by
  refine Logs.draws (inRoster_logs he hlogs) ?_
  rintro p htidy rfl a p' hrun
  obtain ⟨out, hout, rfl, rfl⟩ := inRoster_ok he hrun
  have houtline := hf p.state htidy rfl out hout
  unfold Progress.outline at houtline ⊢
  rw [taken_append_roster hlogs hout]
  exact houtline

/-- An operation that keeps all stances keeps the outline. -/
theorem inRoster_draws_self {e : Recording CharacterError Roster α}
    {f : Roster → Except CharacterError (Recorded Roster α)} (he : e = .ofAnswer f)
    (hlogs : Roster.Logs f) (hf : ∀ r out, f r = .ok out → out.state.stance? = r.stance?) :
    Draws o (inRoster e) fun _ o' ↦ o' = o := by
  refine inRoster_draws he hlogs fun s _ hstance out hout ↦ ?_
  rw [hf s.roster out hout, hstance]

theorem replace_draws [DecidableEq β] (part : CharacterPart β) {value : β} (g : Stance → Stance)
    {e : Recording CharacterError Roster Unit}
    (he : e = .ofAnswer fun r ↦ r.replace part id value)
    (hlogs : Roster.Logs fun r ↦ r.replace part id value)
    (hset : ∀ c, (part.set c value).stance = g c.stance)
    (hsame : ∀ c, part.get c = value → g c.stance = c.stance) :
    Draws o (inRoster e) fun _ o' ↦
      ∃ st, o.stance? id = some st ∧ o' = o.withStance id (g st) := by
  refine inRoster_draws he hlogs fun s _ hstance out hout ↦ ?_
  obtain ⟨st, hst, hafter⟩ := Roster.stance?_replace part g hset hsame hout
  rw [hstance] at hst hafter
  exact ⟨st, hst, by rw [hafter]; rfl⟩

theorem setMining_draws (status : MiningStatus) :
    Draws o (inRoster (.setMining id status)) fun _ o' ↦
      ∃ st, o.stance? id = some st ∧ o' = o.withStance id { st with mining := status } :=
  replace_draws .mining (fun st ↦ { st with mining := status })
    (Recording.setMining_eq id status) (Roster.setMining_logs id status) (fun _ ↦ rfl)
    fun _ hsame ↦ hsame ▸ rfl

theorem setWaypoints_draws (waypoints : List Coord) :
    Draws o (inRoster (.setWaypoints id waypoints)) fun _ o' ↦
      ∃ st, o.stance? id = some st ∧ o' = o.withStance id { st with waypoints := waypoints } :=
  replace_draws .waypoints (fun st ↦ { st with waypoints := waypoints })
    (Recording.setWaypoints_eq id waypoints) (Roster.setWaypoints_logs id waypoints) (fun _ ↦ rfl)
    fun _ hsame ↦ hsame ▸ rfl

theorem setPosition_draws (position : Coord) :
    Draws o (inRoster (.setPosition id position)) fun _ o' ↦
      ∃ st, o.stance? id = some st ∧ o' = o.withStance id { st with position := position } :=
  replace_draws .position (fun st ↦ { st with position := position })
    (Recording.setPosition_eq id position) (Roster.setPosition_logs id position) (fun _ ↦ rfl)
    fun _ hsame ↦ hsame ▸ rfl

theorem stopRegion_draws (region : RegionId) :
    Draws o (inRoster (.stopRegion region)) fun _ o' ↦ o' = o.cleared region := by
  refine Logs.draws (stopRegion_logs region) ?_
  rintro p htidy rfl a p' h
  obtain ⟨out, hout, -, hrun⟩ := stopRegion_run htidy.wellFormed.roster region
  cases hrun.symm.trans h
  have hafter := Roster.stance?_stopRegion htidy.wellFormed.roster hout
  refine Outline.ext rfl rfl (funext hafter) rfl rfl ?_
  exact taken_append_roster (Roster.stopRegion_logs region) hout p.undo

/-! ### Operations on the ground and on deposits -/

theorem inLoot_draws {e : Recording WorldError GroundLoot α}
    {f : GroundLoot → Except WorldError (Recorded GroundLoot α)} (he : e = .ofAnswer f)
    (hlogs : GroundLoot.Logs f) : Draws o (inLoot e) fun _ o' ↦ o' = o := by
  refine Logs.draws (inLoot_logs he hlogs) ?_
  rintro p htidy rfl a p' hrun
  rw [inLoot_eq he, onLoot?] at hrun
  cases hout : f p.state.loot with
  | error e =>
    rw [hout] at hrun
    cases hrun
  | ok out =>
    rw [hout] at hrun
    cases hrun
    have htaken := BlockUndo.taken_append (hlogs p.state.loot out hout)
      (fun _ _ _ _ hchange ↦ by cases hchange <;> rfl) p.undo
    unfold Progress.outline
    rw [htaken]
    rfl

/-- A positive find becomes the deposit of a region that has none. -/
theorem settle_draws (find : Find) (prospection : Prospection) :
    Draws o (settle region find prospection) fun _ o' ↦
      o' = if o.stocked region = false ∧ find.amount ≠ 0 then o.settled region find prospection
        else o := by
  refine Logs.draws (settle_logs region find prospection) ?_
  rintro p htidy rfl a p' hrun
  have hself : (Progress.mk p.state (p.undo.append [])).outline = p.outline := by
    rw [BlockUndo.append_nil]
  have hvacant := Deposits.resource?_eq_none_iff p region
  rw [settle, inDeposits_eq (Recording.assignIfVacant_eq region find prospection), onDeposits?,
    Deposits.assignIfVacant] at hrun
  cases hassign : p.state.deposits.assign region find.resource find.amount prospection with
  | ok out =>
    simp only [hassign] at hrun
    cases hrun
    obtain ⟨hnone, hpositive, hrecord, hdeltas⟩ := Deposits.assign_ok hassign
    rw [if_pos ⟨hvacant.1 hnone, hpositive⟩]
    refine Outline.ext rfl rfl rfl hrecord ?_ ?_
    · funext r
      exact (Deposits.assign_totals hassign r).1
    · funext region'
      simp [Progress.outline, Outline.settled, Outline.withRecord, BlockUndo.taken,
        BlockUndo.append, hdeltas, UndoDelta.taken]
  | error e =>
    have hrefused : e ≠ .arithmeticOverflow →
        ¬ (p.outline.stocked region = false ∧ find.amount ≠ 0) := by
      rintro hcause ⟨hfree, hpositive⟩
      simp only [Deposits.assign, hvacant.2 hfree, if_neg hpositive] at hassign
      cases htotal : Word.add? (p.state.deposits.prospected.amount find.resource) find.amount with
      | none =>
        rw [htotal] at hassign
        cases hassign
        exact hcause rfl
      | some total =>
        rw [htotal] at hassign
        cases hassign
    simp only [hassign] at hrun
    cases e with
    | alreadyAssigned =>
      cases hrun
      rw [if_neg (hrefused (by simp))]
      exact hself
    | emptyDeposit =>
      cases hrun
      rw [if_neg (hrefused (by simp))]
      exact hself
    | _ => cases hrun

/-- Extracting from a region takes as many units as there are, up to the rate. -/
theorem extract_draws (rate : UInt64) :
    Draws o (inDeposits (.extract region rate)) fun answer o' ↦ match answer with
      | none => o.stocked region = false ∧ o' = o
      | some (_, taken) => ∃ record, o.record? region = some record ∧ record.resource.isSome ∧
        taken = min rate record.remaining ∧ o' = o.extracted region record taken := by
  refine Logs.draws (inDeposits_logs (Recording.extract_eq region rate)
    (Deposits.extract_logs region rate)) ?_
  rintro p htidy rfl a p' hrun
  have hself : (Progress.mk p.state (p.undo.append [])).outline = p.outline := by
    rw [BlockUndo.append_nil]
  have hvacant := Deposits.resource?_eq_none_iff p region
  rw [inDeposits_extract, onDeposits, Deposits.extract] at hrun
  cases hrecord : p.state.deposits.record? region with
  | none =>
    simp only [hrecord] at hrun
    cases hrun
    refine ⟨hvacant.1 ?_, hself⟩
    simp [Deposits.resource?, hrecord]
  | some record =>
    cases hresource : record.resource with
    | none =>
      simp only [hrecord, hresource] at hrun
      cases hrun
      refine ⟨hvacant.1 ?_, hself⟩
      simp [Deposits.resource?, hrecord, RegionRecord.deposit?, hresource]
    | some resource =>
      simp only [hrecord, hresource] at hrun
      by_cases hzero : min rate record.remaining = 0
      · simp only [hzero, if_true] at hrun
        cases hrun
        have htyped := htidy.typed region record hrecord
        refine ⟨record, hrecord, by simp [hresource], hzero.symm, ?_⟩
        rw [Outline.extracted_zero hrecord (htyped.1 (by simp [hresource]))]
        exact hself
      · simp only [hzero, if_false] at hrun
        cases hrun
        refine ⟨record, hrecord, by simp [hresource], rfl, ?_⟩
        refine Outline.ext rfl rfl rfl (Deposits.record?_insert _ _ _ _) rfl ?_
        funext region'
        simp [Progress.outline, Outline.extracted, BlockUndo.taken,
          BlockUndo.append, UndoDelta.taken]

end Turn

end MiningGame
