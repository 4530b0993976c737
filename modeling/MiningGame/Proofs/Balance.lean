import MiningGame.Proofs.AllOrNothing
import MiningGame.Proofs.Audit

/-!
# Balance within a block

Every part of a block starts and ends in a state whose resources balance. In between, units of one
resource may be on their way: debited and not yet dropped, picked up or extracted and not yet
credited (`GameState.InFlight`). The balance bounds them together with what is at their goal, so
they can always arrive there.
-/

namespace MiningGame

/-- An amount of one resource is on its way; with it the resources balance. -/
def GameState.InFlight (resource : Resource) (amount : UInt64) (s : GameState) : Prop :=
  ∀ r, s.deposits.prospectedOf r =
    s.deposits.remainingOf r + s.roster.carriedOf r + s.loot.lyingOf r + units resource amount r

/-- The state is well-formed, and certain characters exist. -/
structure Ready (ids : List CharacterId) (s : GameState) : Prop where
  wellFormed : s.WellFormed
  present : ∀ id ∈ ids, ∃ c, s.roster.get? id = some c

theorem Roster.Change.present {r r' : Roster} {δ : UndoDelta} {id : CharacterId}
    (h : Roster.Change r δ r') (hid : ∃ c, r.get? id = some c) : ∃ c, r'.get? id = some c := by
  have hstore : ∀ id' c', ∃ c, (r.store id' c').get? id = some c := by
    intro id' c'
    rw [get?_store]
    split
    · exact ⟨c', rfl⟩
    · exact hid
  cases h with
  | create =>
    change ∃ c, (r.characters.insert r.nextId _).get? id = some c
    rw [Table.get?_insert]
    split
    · exact ⟨_, rfl⟩
    · exact hid
  | mining => exact hstore _ _
  | waypoints => exact hstore _ _
  | position => exact hstore _ _
  | credit => exact hstore _ _
  | debit => exact hstore _ _

namespace Ready

variable {ids : List CharacterId} {s s' : GameState} {id : CharacterId}

theorem change {δ : UndoDelta} (hchange : GameState.Change s δ s') (h : Ready ids s) :
    Ready ids s' := by
  refine ⟨hchange.wellFormed h.wellFormed, fun id hid ↦ ?_⟩
  cases hchange with
  | roster change => exact change.present (h.present id hid)
  | deposits => exact h.present id hid
  | loot => exact h.present id hid

theorem logged {p p' : Progress} (hlogged : Logged p p') (h : Ready ids p.state) :
    Ready ids p'.state := by
  obtain ⟨δs, -, hhistory⟩ := hlogged
  exact hhistory.keeps (fun _ _ _ ↦ change) h

theorem of_get? {c : Character} (h : Ready [] s) (found : s.roster.get? id = some c) :
    Ready [id] s := by
  refine ⟨h.wellFormed, fun id' hid ↦ ?_⟩
  rw [List.mem_singleton.1 hid]
  exact ⟨c, found⟩

theorem weaken (h : Ready ids s) : Ready [] s := ⟨h.wellFormed, fun _ hid ↦ nomatch hid⟩

end Ready

namespace Turn

variable {α β : Type} {h : UInt64} {ids : List CharacterId} {P : GameState → Prop}
  {Q : α → GameState → Prop} {R : β → GameState → Prop} {E : BlockError → Progress → Prop}
  {t : Turn α}

/-- In a block of some height a turn leads from one condition on states to another, or fails in a
certain way. -/
def Yields (h : UInt64) (ids : List CharacterId) (P : GameState → Prop) (t : Turn α)
    (Q : α → GameState → Prop) (E : BlockError → Progress → Prop) : Prop :=
  Contract (fun p ↦ p.undo.height = h ∧ Ready ids p.state ∧ P p.state) t
    (fun a p ↦ p.undo.height = h ∧ Ready ids p.state ∧ Q a p.state) E

/-- A turn that records everything keeps the states ready. -/
theorem Logs.yields (hlogs : t.Logs)
    (ht : Contract (fun p ↦ p.undo.height = h ∧ Ready ids p.state ∧ P p.state) t
      (fun a p ↦ Q a p.state) E) : Yields h ids P t Q E := by
  intro p hp
  cases hrun : t p with
  | ok a p' =>
    have hlogged := (hlogs p).of_ok (Logged.refl p) hrun
    exact ⟨hlogged.height_eq.trans hp.1, hp.2.1.logged hlogged, ht.of_ok hp hrun⟩
  | error e p' => exact ht.of_error hp hrun

theorem Yields.bind {f : α → Turn β} (ht : Yields h ids P t Q E)
    (hf : ∀ a, Yields h ids (Q a) (f a) R E) : Yields h ids P (t >>= f) R E :=
  Contract.bind ht hf

theorem pure_yields {a : α} (hPQ : ∀ s, P s → Q a s) : Yields h ids P (pure a) Q E :=
  Contract.pure fun p hp ↦ ⟨hp.1, hp.2.1, hPQ p.state hp.2.2⟩

theorem state_yields : Yields h ids P state (fun s s' ↦ P s' ∧ s = s') E :=
  fun _ hp ↦ ⟨hp.1, hp.2.1, hp.2.2, rfl⟩

theorem height_yields : Yields h ids P height (fun h' s ↦ P s ∧ h' = h) E :=
  fun _ hp ↦ ⟨hp.1, hp.2.1, hp.2.2, hp.1⟩

theorem character_yields {id : CharacterId} (hid : id ∈ ids) :
    Yields h ids P (character id) (fun c s ↦ P s ∧ s.roster.get? id = some c) E := by
  refine Logs.yields (character_logs id) fun p hp ↦ ?_
  obtain ⟨c, found⟩ := hp.2.1.present id hid
  rw [character_of_get? found]
  exact ⟨hp.2.2, found⟩

theorem inRoster_yields {e : Recording CharacterError Roster α}
    {f : Roster → Except CharacterError (Recorded Roster α)} (he : e = .ofAnswer f)
    (hlogs : Roster.Logs f) (hf : ∀ s, Ready ids s → P s →
      ∃ out, f s.roster = .ok out ∧ Q out.answer { s with roster := out.state }) :
    Yields h ids P (inRoster e) Q E := by
  refine Logs.yields (inRoster_logs he hlogs) fun p hp ↦ ?_
  obtain ⟨out, hout, hQ⟩ := hf p.state hp.2.1 hp.2.2
  rw [inRoster_eq he, onRoster, hout]
  exact hQ

/-! ### Changes of the roster that move no units -/

theorem neutral_yields {e : Recording CharacterError Roster α}
    {f : Roster → Except CharacterError (Recorded Roster α)} (he : e = .ofAnswer f)
    (hlogs : Roster.Logs f) (hf : ∀ s, Ready ids s →
      ∃ out, f s.roster = .ok out ∧ ∀ x, out.state.carriedOf x = s.roster.carriedOf x) :
    Yields h ids GameState.Balanced (inRoster e) (fun _ ↦ GameState.Balanced) E := by
  refine inRoster_yields he hlogs fun s hready hbalanced ↦ ?_
  obtain ⟨out, hout, hcarried⟩ := hf s hready
  refine ⟨out, hout, fun r ↦ ?_⟩
  rw [hcarried]
  exact hbalanced r

end Turn

namespace Roster

variable {r : Roster} {id : CharacterId} {c : Character}

theorem carriedOf_create (hr : r.WellFormed) (next : CharacterId) (owner name : String)
    (position : Coord) (x : Resource) :
    carriedOf ⟨r.characters.insert r.nextId (.spawn r.nextId owner name position), next⟩ x =
      r.carriedOf x := by
  have hset := r.characters.total_set (fun c ↦ (c.inventory.amount x).toNat) r.nextId
    (some (.spawn r.nextId owner name position))
  have hfresh : r.characters.get? r.nextId = none := hr.get?_nextId
  rw [hfresh] at hset
  exact hset

theorem next?_eq_none_iff : id.next? = none ↔ id.value = Word.largest := by
  unfold CharacterId.next?
  have hlt := id.value.toNat_lt_size
  have hlargest : Word.largest.toNat + 1 = UInt64.size := rfl
  rw [Option.map_eq_none_iff, Word.add?_eq_none_iff, ← UInt64.toNat_inj, UInt64.toNat_one]
  omega

theorem replace_ok {α : Type} [DecidableEq α] (part : CharacterPart α) (found : r.get? id = some c)
    (value : α) : ∃ out, r.replace part id value = .ok out ∧
      ∀ x, out.state.carriedOf x = r.carriedOf x := by
  unfold replace
  rw [find_eq_ok_iff.2 found]
  by_cases hsame : part.get c = value
  · exact ⟨⟨r, (), []⟩, if_pos hsame, fun _ ↦ rfl⟩
  · exact ⟨_, if_neg hsame, carriedOf_store_of_eq found (part.inventory_set c value)⟩

theorem startMining_cases (found : r.get? id = some c) (grid : Grid) (deposits : Deposits)
    (region : RegionId) :
    (∃ reason, r.startMining grid deposits id region =
        .error (.invalidMiningTarget id region reason)) ∨
      ∃ out, r.startMining grid deposits id region = .ok out ∧
        ∀ x, out.state.carriedOf x = r.carriedOf x := by
  unfold startMining
  rw [find_eq_ok_iff.2 found, ok_bind]
  cases rejection? grid deposits c region with
  | some reason => exact .inl ⟨reason, rfl⟩
  | none => exact .inr (replace_ok .mining found (.mining region))

theorem stopAll_ok {ids : List CharacterId} (hids : ∀ id ∈ ids, ∃ c, r.get? id = some c) :
    ∃ out, r.stopAll ids = .ok out ∧ ∀ x, out.state.carriedOf x = r.carriedOf x := by
  induction ids generalizing r with
  | nil => exact ⟨⟨r, (), []⟩, rfl, fun _ ↦ rfl⟩
  | cons id rest ih =>
    obtain ⟨c, found⟩ := hids id List.mem_cons_self
    obtain ⟨one, hone, hcarried⟩ := replace_ok .mining found .idle
    have hhistory := setMining_logs id .idle r one hone
    obtain ⟨others, hothers, hrest⟩ := ih (r := one.state) fun id' hid ↦
      hhistory.keeps (I := fun r ↦ ∃ c, r.get? id' = some c) (fun _ _ _ ↦ Change.present)
        (hids id' (List.mem_cons_of_mem _ hid))
    refine ⟨_, bind_eq_ok_iff.2 ⟨one, hone, bind_eq_ok_iff.2 ⟨others, hothers, rfl⟩⟩, fun x ↦ ?_⟩
    exact (hrest x).trans (hcarried x)

theorem stopRegion_ok (hr : r.WellFormed) (region : RegionId) :
    ∃ out, r.stopRegion region = .ok out ∧ ∀ x, out.state.carriedOf x = r.carriedOf x := by
  have hminers : ∀ id ∈ r.minersOf region, ∃ c, r.get? id = some c := by
    intro id hid
    obtain ⟨c, hc, rfl⟩ := List.mem_map.1 hid
    obtain ⟨⟨id', c'⟩, he, rfl⟩ := List.mem_map.1 (List.mem_filter.1 hc).1
    have found : r.get? id' = some c' := Table.get?_eq_some_iff.2 he
    rw [hr.own id' c' found]
    exact ⟨c', found⟩
  obtain ⟨stopped, hstopped, hcarried⟩ := stopAll_ok hminers
  exact ⟨_, bind_eq_ok_iff.2 ⟨stopped, hstopped, rfl⟩, hcarried⟩

end Roster

/-- All miners of a region are known, so the stopping does not break off half-way. -/
theorem Turn.stopRegion_run {p : Progress} (hp : p.state.roster.WellFormed) (region : RegionId) :
    ∃ out, p.state.roster.stopRegion region = .ok out ∧
      (∀ x, out.state.carriedOf x = p.state.roster.carriedOf x) ∧
      inRoster (.stopRegion region) p =
        .ok out.answer ⟨{ p.state with roster := out.state }, p.undo.append out.deltas⟩ := by
  obtain ⟨out, hout, hcarried⟩ := Roster.stopRegion_ok hp region
  exact ⟨out, hout, hcarried, inRoster_of_ok (Recording.stopRegion_of_ok hout p.undo)⟩

end MiningGame
