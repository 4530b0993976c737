import MiningGame.Proofs.Failures
import MiningGame.Proofs.Gains

/-!
# Sharing out deposits

In the middle of extraction some miners still wait for their turn, and some of them were stopped
already because their region ran dry (`GameState.Queued`). What single turns do
(`Turn.extractOne_leads`) adds up along the queue to a closed form in which regions do not mix: the
miner at a place of its region gets what those before it have left, up to the rate
(`Turn.extraction_shares`).
-/

namespace MiningGame

/-! ## One turn -/

/-- Units of deposits were credited to characters, and some miners of used up regions stopped. -/
structure GameState.Extracted (gain : CharacterId → Resource → Nat) (taken : RegionId → Nat)
    (s s' : GameState) : Prop where
  same : s' = { s with deposits := s'.deposits, roster := s'.roster }
  deposits : s.deposits.Drawn taken s'.deposits
  roster : s.roster.Gained gain (fun region ↦ s'.deposits.remaining region = 0) s'.roster

/-- A queue of miners that wait for their turn. Some may have been stopped since, but only because
their region is used up; and whoever mines without a deposit waits. -/
structure GameState.Queued (s : GameState) (queue : List (CharacterId × RegionId)) : Prop where
  typed : s.deposits.Typed
  nodup : (queue.map (·.1)).Nodup
  listed : ∀ e ∈ queue, ∃ c, s.roster.get? e.1 = some c ∧
    (c.mining = .mining e.2 ∨ c.mining = .idle ∧ s.deposits.remaining e.2 = 0)
  waiting : ∀ id c region, s.roster.get? id = some c → c.mining = .mining region →
    s.deposits.remaining region = 0 → (id, region) ∈ queue

/-- What characters gain if one of them gets units from a region. -/
def GameState.credited (s : GameState) (region : RegionId) (id : CharacterId) (n : UInt64)
    (id' : CharacterId) (x : Resource) : Nat :=
  if id' = id ∧ s.deposits.type? region = some x then n.toNat else 0

/-- A miner got its share. If nothing is left, then it does not go on, and neither does any other
miner of the region unless there never was anything. -/
structure GameState.Served (rate : UInt64) (id : CharacterId) (region : RegionId) (s : GameState)
    (n : UInt64) (s' : GameState) : Prop where
  share : n.toNat = min rate.toNat (s.deposits.remaining region).toNat
  extracted : s.Extracted (s.credited region id n) (fun r ↦ if r = region then n.toNat else 0) s'
  calm : ∀ id' c', s'.roster.get? id' = some c' → c'.mining = .mining region →
    s'.deposits.remaining region = 0 → s.deposits.remaining region = 0 ∧ id' ≠ id

namespace GameState

theorem credited_zero (s : GameState) (region : RegionId) (id : CharacterId) :
    s.credited region id 0 = fun _ _ ↦ 0 := by
  funext id' x
  exact ite_self 0

variable {s s' s'' : GameState} {queue rest : List (CharacterId × RegionId)} {rate n : UInt64}
  {id : CharacterId} {region : RegionId}

theorem Extracted.remaining_zero {gain : CharacterId → Resource → Nat} {taken : RegionId → Nat}
    (h : s.Extracted gain taken s') (hd : s.deposits.Typed)
    (hzero : s.deposits.remaining region = 0) : s'.deposits.remaining region = 0 := by
  have hleft := h.deposits.remaining hd region
  rw [hzero, UInt64.toNat_zero] at hleft
  exact Word.eq_zero_of_toNat (by omega)

theorem Extracted.trans {gain gain' : CharacterId → Resource → Nat}
    {taken taken' : RegionId → Nat} (hd : s.deposits.Typed) (h : s.Extracted gain taken s')
    (h' : s'.Extracted gain' taken' s'') :
    s.Extracted (fun id x ↦ gain id x + gain' id x) (fun r ↦ taken r + taken' r) s'' where
  same := by
    rw [h'.same, h.same]
  deposits := h.deposits.trans hd h'.deposits
  roster := h.roster.trans h'.roster fun _ ↦ h'.remaining_zero (h.deposits.typed hd)

/-- A miner whose region holds nothing gets nothing and mines no more. -/
theorem Served.of_nothing {d : Deposits} {r : Roster} (hnothing : s.deposits.remaining region = 0)
    (hdrawn : s.deposits.Drawn (fun _ ↦ 0) d)
    (hgained : s.roster.Gained (fun _ _ ↦ 0) (fun r ↦ d.remaining r = 0) r)
    (hstopped : ∀ c, r.get? id = some c → c.mining ≠ .mining region) :
    s.Served rate id region 0 { s with deposits := d, roster := r } where
  share := by simp [hnothing]
  extracted := by
    refine ⟨rfl, by simpa using hdrawn, ?_⟩
    rw [credited_zero]
    exact hgained
  calm := by
    rintro id' c' found' hmining' -
    refine ⟨hnothing, ?_⟩
    rintro rfl
    exact hstopped c' found' hmining'

/-- A turn takes its miner off the queue. -/
theorem Queued.next (hq : s.Queued ((id, region) :: rest)) (h : s.Served rate id region n s') :
    s'.Queued rest where
  typed := h.extracted.deposits.typed hq.typed
  nodup := (List.nodup_cons.1 hq.nodup).2
  listed := by
    intro e he
    obtain ⟨c, found, hc⟩ := hq.listed e (List.mem_cons_of_mem _ he)
    obtain ⟨c', found', hgained⟩ := h.extracted.roster.get? found
    refine ⟨c', found', ?_⟩
    rcases hgained.mining with hstay | ⟨region', hmining, hidle, hover⟩
    · rw [hstay]
      exact hc.imp_right fun hstopped ↦
        ⟨hstopped.1, h.extracted.remaining_zero hq.typed hstopped.2⟩
    · rcases hc with hc | hc
      · cases hmining.symm.trans hc
        exact .inr ⟨hidle, hover⟩
      · cases hmining.symm.trans hc.1
  waiting := by
    intro id' c' region' found' hmining' hzero'
    obtain ⟨c, found, hgained⟩ := h.extracted.roster.get?_before found'
    have hmining : c.mining = .mining region' := by
      rcases hgained.mining with hstay | ⟨-, -, hidle, -⟩
      · rw [← hstay, hmining']
      · cases hidle.symm.trans hmining'
    have hwaits : s.deposits.remaining region' = 0 ∧ (id', region') ≠ (id, region) := by
      by_cases hregion : region' = region
      · subst hregion
        obtain ⟨hzero, hother⟩ := h.calm id' c' found' hmining' hzero'
        exact ⟨hzero, fun heq ↦ hother (congrArg Prod.fst heq)⟩
      · have hleft := h.extracted.deposits.remaining hq.typed region'
        rw [if_neg hregion, hzero'] at hleft
        exact ⟨Word.eq_zero_of_toNat hleft.symm, fun heq ↦ hregion (congrArg Prod.snd heq)⟩
    have hmem := hq.waiting id' c region' found hmining hwaits.1
    exact (List.mem_cons.1 hmem).resolve_left hwaits.2

end GameState

namespace Turn

variable {α β : Type} {s : GameState} {t : Turn α} {Q : α → GameState → Prop}
  {R : β → GameState → Prop} {rate : UInt64} {id : CharacterId} {region : RegionId}
  {rest : List (CharacterId × RegionId)}

/-- From one well-formed state, a turn that succeeds leads to a well-formed one with a property. -/
def Leads (s : GameState) (t : Turn α) (Q : α → GameState → Prop) : Prop :=
  Contract (fun p ↦ p.state.WellFormed ∧ p.state = s) t
    (fun a p ↦ p.state.WellFormed ∧ Q a p.state) fun _ _ ↦ True

namespace Leads

theorem pure {a : α} (h : Q a s) : Leads s (pure a) Q := by
  rintro p ⟨hwell, rfl⟩
  exact ⟨hwell, h⟩

theorem bind {f : α → Turn β} (ht : Leads s t Q) (hf : ∀ a s', Q a s' → Leads s' (f a) R) :
    Leads s (t >>= f) R :=
  Contract.bind ht fun a p hp ↦ hf a p.state hp.2 p ⟨hp.1, rfl⟩

theorem withState {f : GameState → Turn α} (h : s.WellFormed → Leads s (f s) Q) :
    Leads s (state >>= f) Q := by
  rintro p ⟨hwell, rfl⟩
  exact h hwell p ⟨hwell, rfl⟩

end Leads

theorem Logs.leads (hlogs : Logs t)
    (h : ∀ p : Progress, p.state = s → s.WellFormed → ∀ a p', t p = .ok a p' → Q a p'.state) :
    Leads s t Q := by
  rintro p ⟨hwell, rfl⟩
  cases hrun : t p with
  | ok a p' =>
    obtain ⟨δs, -, hhistory⟩ := (hlogs p).of_ok (Logged.refl p) hrun
    exact ⟨GameState.wellFormed_of_history hhistory hwell, h p rfl hwell a p' hrun⟩
  | error e p' => trivial

theorem inRoster_leads {e : Recording CharacterError Roster α}
    {f : Roster → Except CharacterError (Recorded Roster α)} (he : e = .ofAnswer f)
    (hlogs : Roster.Logs f) (hf : ∀ out, f s.roster = .ok out →
      Q out.answer { s with roster := out.state }) : Leads s (inRoster e) Q := by
  refine Logs.leads (inRoster_logs he hlogs) ?_
  rintro p rfl - a p' hrun
  obtain ⟨out, hout, rfl, rfl⟩ := inRoster_ok he hrun
  exact hf out hout

theorem extract_leads (rate : UInt64) (region : RegionId) :
    Leads s (inDeposits (.extract region rate)) fun answer s' ↦
      answer = (s.deposits.extract region rate).answer ∧
        s' = { s with deposits := (s.deposits.extract region rate).state } := by
  refine Logs.leads (inDeposits_logs (Recording.extract_eq region rate)
    (Deposits.extract_logs region rate)) ?_
  rintro p rfl - a p' hrun
  rw [inDeposits_extract] at hrun
  cases hrun
  exact ⟨rfl, rfl⟩

/-- Stopping the miner ends a turn in which nothing was to be had. -/
theorem stopMining_leads {d : Deposits} {c : Character} (found : s.roster.get? id = some c)
    (hmining : c.mining = .mining region) (hnothing : s.deposits.remaining region = 0)
    (htyped : s.deposits.Typed) (hdrawn : s.deposits.Drawn (fun _ ↦ 0) d) :
    Leads { s with deposits := d } (inRoster (.stopMining id)) fun _ s' ↦
      s.Served rate id region 0 s' := by
  have hleft := hdrawn.remaining htyped region
  rw [hnothing, UInt64.toNat_zero] at hleft
  have hempty : d.remaining region = 0 := Word.eq_zero_of_toNat (by omega)
  apply inRoster_leads (Recording.stopMining_eq id) (Roster.stopMining_logs id)
  intro out hout
  apply GameState.Served.of_nothing hnothing hdrawn
  · apply Roster.stopMining_gained hout region
    intro c' found'
    cases found.symm.trans found'
    exact ⟨hmining, hempty⟩
  · intro c' found'
    have hidle := Roster.get?_setMining hout id
    rw [if_pos rfl, found, Option.map_some] at hidle
    cases hidle.symm.trans found'
    exact nofun

/-- Stopping all miners of the region ends a turn that used it up. -/
theorem stopRegion_leads {n : UInt64} {d : Deposits} {r : Roster}
    (hshare : n.toNat = min rate.toNat (s.deposits.remaining region).toNat)
    (hdrawn : s.deposits.Drawn (fun r ↦ if r = region then n.toNat else 0) d)
    (hgained : s.roster.Gained (s.credited region id n) (fun r ↦ d.remaining r = 0) r)
    (hr : r.WellFormed) (hempty : d.remaining region = 0) :
    Leads { s with deposits := d, roster := r } (inRoster (.stopRegion region)) fun _ s' ↦
      s.Served rate id region n s' := by
  refine Logs.leads (stopRegion_logs region) fun p hp _ a p' h ↦ ?_
  obtain ⟨out, hout, -, hrun⟩ := stopRegion_run (p := p) (hp ▸ hr) region
  cases hrun.symm.trans h
  rw [hp] at hout ⊢
  have hstopped : r.Gained (fun _ _ ↦ 0) (fun r ↦ d.remaining r = 0) out.state :=
    Roster.stopRegion_gained hr hout hempty
  refine ⟨hshare, ⟨rfl, hdrawn, hgained.trans hstopped fun _ h ↦ h⟩, ?_⟩
  intro id' c' found' hmining'
  exact absurd hmining' (Roster.mining_ne_of_stopRegion hr hout found')

theorem credit_leads {n : UInt64} {d : Deposits} {resource : Resource}
    (htype : s.deposits.type? region = some resource) :
    Leads { s with deposits := d } (inRoster (.credit id resource n)) fun _ s' ↦
      ∃ r, s' = { s with deposits := d, roster := r } ∧
        s.roster.Gained (s.credited region id n) (fun r ↦ d.remaining r = 0) r := by
  apply inRoster_leads (Recording.credit_eq id resource n) (Roster.credit_logs id resource n)
  intro out hout
  refine ⟨out.state, rfl, ?_⟩
  have hcredited : s.credited region id n =
      fun id' x ↦ if id' = id then units resource n x else 0 := by
    funext id' x
    simp only [GameState.credited, htype, Option.some.injEq, units, ite_and]
  rw [hcredited]
  exact Roster.credit_gained hout

/-- A turn serves its miner, whether it still mines or was stopped before, and whether or not
there ever was a deposit. -/
theorem extractOne_leads (rate : UInt64) (hq : s.Queued ((id, region) :: rest)) :
    Leads s (extractOne rate id region) fun n s' ↦ s.Served rate id region n s' := by
  obtain ⟨c, found, hlisted⟩ := hq.listed _ List.mem_cons_self
  apply Leads.withState
  intro _
  split
  · next hstopped =>
    have hnot : c.mining ≠ .mining region := by simpa [found] using hstopped
    have hnothing := (hlisted.resolve_left hnot).2
    apply Leads.pure
    apply GameState.Served.of_nothing hnothing (.refl hq.typed) (.refl s.roster)
    intro c' found'
    cases found.symm.trans found'
    exact hnot
  · next hactive =>
    have hmining : c.mining = .mining region := by simpa [found] using hactive
    obtain ⟨hanswer, hdrawn⟩ := Deposits.extract_drawn hq.typed region rate
    apply (extract_leads rate region).bind
    rintro answer s₁ ⟨rfl, rfl⟩
    rw [hanswer]
    generalize (s.deposits.extract region rate).state = d at hdrawn
    cases htype : s.deposits.type? region with
    | none =>
      have hnothing := (Deposits.type?_eq_none_iff hq.typed).1 htype
      have hdrawn : s.deposits.Drawn (fun _ ↦ 0) d := by simpa [hnothing] using hdrawn
      apply (stopMining_leads found hmining hnothing hq.typed hdrawn).bind
      rintro - s' hserved
      exact Leads.pure hserved
    | some resource =>
      simp only [Option.map_some]
      have hshare := Word.toNat_min rate (s.deposits.remaining region)
      rw [← hshare] at hdrawn
      apply (credit_leads htype).bind
      rintro - s₂ ⟨r, rfl, hgained⟩
      apply Leads.withState
      intro hwell
      simp only
      split
      · next hempty =>
        apply (stopRegion_leads hshare hdrawn hgained hwell.roster hempty).bind
        rintro - s' hserved
        exact Leads.pure hserved
      · next hleft =>
        apply Leads.pure
        exact ⟨hshare, ⟨rfl, hdrawn, hgained⟩, fun _ _ _ _ hempty ↦ absurd hempty hleft⟩

end Turn

/-! ## The whole queue -/

/-- The miners of a region in a queue, in its order. -/
def minersIn (region : RegionId) (queue : List (CharacterId × RegionId)) : List CharacterId :=
  (queue.filter fun e ↦ e.2 = region).map (·.1)

section MinersIn

variable {queue : List (CharacterId × RegionId)} {id : CharacterId} {region r : RegionId}

theorem minersIn_cons_self :
    minersIn region ((id, region) :: queue) = id :: minersIn region queue := by
  simp [minersIn]

theorem minersIn_cons_of_ne (h : r ≠ region) :
    minersIn r ((id, region) :: queue) = minersIn r queue := by
  simp [minersIn, h.symm]

theorem mem_map_of_mem_minersIn (h : id ∈ minersIn region queue) : id ∈ queue.map (·.1) := by
  obtain ⟨e, he, rfl⟩ := List.mem_map.1 h
  exact List.mem_map_of_mem (List.mem_filter.1 he).1

end MinersIn

/-- A queue was worked off: every miner in it got its share, and nobody waits any more. -/
structure GameState.WorkedOff (rate : UInt64) (queue : List (CharacterId × RegionId))
    (gain : CharacterId → Resource → Nat) (s : GameState) (shares : List (CharacterId × UInt64))
    (s' : GameState) : Prop where
  ids : shares.map (·.1) = queue.map (·.1)
  extracted : s.Extracted gain (fun region ↦
    min ((minersIn region queue).length * rate.toNat) (s.deposits.remaining region).toNat) s'
  queued : s'.Queued []
  place : ∀ region i id, (minersIn region queue)[i]? = some id → ∃ n, (id, n) ∈ shares ∧
    n.toNat = min rate.toNat ((s.deposits.remaining region).toNat - i * rate.toNat) ∧
    gain id = s.credited region id n id
  absent : ∀ id, id ∉ queue.map (·.1) → gain id = fun _ ↦ 0

namespace GameState

variable {s s' s'' : GameState} {rest : List (CharacterId × RegionId)} {rate n : UInt64}
  {shares : List (CharacterId × UInt64)} {gain : CharacterId → Resource → Nat}
  {id id' : CharacterId} {region r : RegionId}

theorem credited_of_ne (h : id' ≠ id) : s.credited region id n id' = fun _ ↦ 0 := by
  funext x
  exact if_neg fun hx ↦ h hx.1

/-- Units that are still there later are of the type they were of before. -/
theorem Extracted.credited_eq {taken : RegionId → Nat} (h : s.Extracted gain taken s')
    (hd : s.deposits.Typed) (hn : n.toNat ≤ (s'.deposits.remaining region).toNat) :
    s'.credited region id n = s.credited region id n := by
  by_cases hleft : s'.deposits.remaining region = 0
  · have hzero : n = 0 := by
      rw [hleft, UInt64.toNat_zero] at hn
      exact Word.eq_zero_of_toNat (Nat.le_zero.1 hn)
    rw [hzero, credited_zero, credited_zero]
  · funext id' x
    rw [credited, credited, h.deposits.type? hd hleft]

theorem WorkedOff.nil (hq : s.Queued []) : s.WorkedOff rate [] (fun _ _ ↦ 0) [] s where
  ids := rfl
  extracted := by
    refine ⟨rfl, ?_, .refl s.roster⟩
    simpa [minersIn] using Deposits.Drawn.refl hq.typed
  queued := hq
  place := fun region i id h ↦ by simp [minersIn] at h
  absent := fun _ _ ↦ rfl

/-- The first turn of a queue comes before all turns of the rest. -/
theorem WorkedOff.cons (hq : s.Queued ((id, region) :: rest))
    (h : s.Served rate id region n s') (h' : s'.WorkedOff rate rest gain shares s'') :
    s.WorkedOff rate ((id, region) :: rest)
      (fun id' x ↦ s.credited region id n id' x + gain id' x) ((id, n) :: shares) s'' where
  ids := by
    rw [List.map_cons, List.map_cons, h'.ids]
  extracted := by
    have hboth := h.extracted.trans hq.typed h'.extracted
    refine ⟨hboth.same, hboth.deposits.congr fun r ↦ ?_, hboth.roster⟩
    have hleft := h.extracted.deposits.remaining hq.typed r
    by_cases hr : r = region
    · subst hr
      have hshare := h.share
      rw [if_pos rfl] at hleft ⊢
      rw [minersIn_cons_self, List.length_cons, Nat.succ_mul]
      omega
    · rw [if_neg hr] at hleft ⊢
      rw [minersIn_cons_of_ne hr, Nat.zero_add]
      omega
  queued := h'.queued
  place := by
    intro r i id' hi
    have hnew : id ∉ rest.map (·.1) := (List.nodup_cons.1 hq.nodup).1
    have hleft := h.extracted.deposits.remaining hq.typed r
    -- Whoever comes later has gained nothing in the first turn.
    have hlater : ∀ j, (minersIn r rest)[j]? = some id' → ∃ n', (id', n') ∈ (id, n) :: shares ∧
        n'.toNat = min rate.toNat ((s'.deposits.remaining r).toNat - j * rate.toNat) ∧
        (fun x ↦ s.credited region id n id' x + gain id' x) = s.credited r id' n' id' := by
      intro j hj
      obtain ⟨n', hmem, hshare, hgain⟩ := h'.place r j id' hj
      have hrest := mem_map_of_mem_minersIn (List.mem_of_getElem? hj)
      have hother : id' ≠ id := fun heq ↦ hnew (heq ▸ hrest)
      refine ⟨n', List.mem_cons_of_mem _ hmem, hshare, ?_⟩
      rw [credited_of_ne hother, hgain, h.extracted.credited_eq hq.typed (by omega)]
      funext x
      exact Nat.zero_add _
    by_cases hr : r = region
    · subst hr
      rw [minersIn_cons_self] at hi
      rw [if_pos rfl] at hleft
      cases i with
      | zero =>
        cases hi
        refine ⟨n, List.mem_cons_self, ?_, ?_⟩
        · rw [Nat.zero_mul, Nat.sub_zero]
          exact h.share
        · rw [h'.absent id hnew]
          rfl
      | succ j =>
        obtain ⟨n', hmem, hshare, hgain⟩ := hlater j hi
        have hfirst := h.share
        refine ⟨n', hmem, ?_, hgain⟩
        rw [hshare, Nat.succ_mul]
        omega
    · rw [minersIn_cons_of_ne hr] at hi
      rw [if_neg hr, Nat.add_zero] at hleft
      obtain ⟨n', hmem, hshare, hgain⟩ := hlater i hi
      exact ⟨n', hmem, by rw [hshare, hleft], hgain⟩
  absent := by
    intro id' hid
    have hother : id' ≠ id := fun heq ↦ hid (heq ▸ List.mem_cons_self)
    have hrest : id' ∉ rest.map (·.1) := fun hmem ↦ hid (List.mem_cons_of_mem _ hmem)
    rw [credited_of_ne hother, h'.absent id' hrest]
    rfl

end GameState

namespace Turn

variable {s : GameState} {queue : List (CharacterId × RegionId)}

theorem queue_leads (rate : UInt64) (hq : s.Queued queue) :
    Leads s (queue.mapM fun e ↦ do return (e.1, ← extractOne rate e.1 e.2)) fun shares s' ↦
      ∃ gain, s.WorkedOff rate queue gain shares s' := by
  induction queue generalizing s with
  | nil => exact Leads.pure ⟨_, .nil hq⟩
  | cons e rest ih =>
    rw [List.mapM_cons]
    apply ((extractOne_leads rate hq).bind (R := fun share s' ↦
      share.1 = e.1 ∧ s.Served rate e.1 e.2 share.2 s') fun n s' hserved ↦
        Leads.pure ⟨rfl, hserved⟩).bind
    rintro ⟨id, n⟩ s' ⟨rfl, hserved⟩
    apply (ih (hq.next hserved)).bind
    rintro shares s'' ⟨gain, hrest⟩
    exact Leads.pure ⟨_, .cons hq hserved hrest⟩

end Turn

namespace Roster

variable {r : Roster} {id : CharacterId} {region : RegionId}

theorem mem_activeMiners_iff (hr : r.WellFormed) :
    (id, region) ∈ r.activeMiners ↔ ∃ c, r.get? id = some c ∧ c.mining = .mining region := by
  have hlisted : ∀ c, c ∈ r.toList ∧ c.id = id ↔ r.get? id = some c := by
    intro c
    have hget : r.get? id = some c ↔ (id, c) ∈ r.characters.entries := Table.get?_eq_some_iff
    rw [hget, hr.entries_eq, List.mem_map]
    constructor
    · rintro ⟨hc, rfl⟩
      exact ⟨c, hc, rfl⟩
    · rintro ⟨c', hc', heq⟩
      cases heq
      exact ⟨hc', rfl⟩
  have hregion : ∀ status : MiningStatus,
      status.region? = some region ↔ status = .mining region := by
    intro status
    cases status <;> simp [MiningStatus.region?]
  unfold activeMiners
  rw [List.mem_filterMap]
  constructor
  · rintro ⟨c, hc, hmap⟩
    obtain ⟨region', hmining, heq⟩ := Option.map_eq_some_iff.1 hmap
    cases heq
    exact ⟨c, (hlisted c).1 ⟨hc, rfl⟩, (hregion _).1 hmining⟩
  · rintro ⟨c, found, hmining⟩
    obtain ⟨hc, rfl⟩ := (hlisted c).2 found
    exact ⟨c, hc, by rw [(hregion _).2 hmining, Option.map_some]⟩

theorem activeMiners_pairwise (hr : r.WellFormed) :
    (r.activeMiners.map (·.1)).Pairwise fun a b ↦ rank a < rank b := by
  have hids : r.toList.Pairwise fun c c' ↦ rank c.id < rank c'.id := by
    have hkeys := r.characters.keys_pairwise
    rw [Table.keys, hr.entries_eq, List.map_map, List.pairwise_map] at hkeys
    exact hkeys
  apply List.pairwise_map.2
  apply hids.filterMap
  intro c c' hlt e he e' he'
  obtain ⟨region, -, rfl⟩ := Option.map_eq_some_iff.1 he
  obtain ⟨region', -, rfl⟩ := Option.map_eq_some_iff.1 he'
  exact hlt

theorem minersIn_activeMiners (r : Roster) (region : RegionId) :
    minersIn region r.activeMiners = r.minersOf region := by
  unfold activeMiners minersOf
  induction r.toList with
  | nil => rfl
  | cons c rest ih =>
    cases hmining : c.mining with
    | idle =>
      rw [List.filterMap_cons_none (by simp [hmining, MiningStatus.region?]), ih,
        List.filter_cons_of_neg (by simp [hmining])]
    | mining region' =>
      rw [List.filterMap_cons_some (b := (c.id, region'))
        (by simp [hmining, MiningStatus.region?])]
      by_cases hregion : region' = region
      · subst hregion
        rw [minersIn_cons_self, ih, List.filter_cons_of_pos (by simp [hmining]), List.map_cons]
      · rw [minersIn_cons_of_ne (Ne.symm hregion), ih,
          List.filter_cons_of_neg (by simp [hmining, hregion])]

end Roster

namespace GameState

variable {s s' : GameState}

/-- Before extraction all miners wait. -/
theorem queued_activeMiners (hwell : s.WellFormed) (htyped : s.deposits.Typed) :
    s.Queued s.roster.activeMiners where
  typed := htyped
  nodup := (Roster.activeMiners_pairwise hwell.roster).imp fun hlt heq ↦ by
    rw [heq] at hlt
    exact Nat.lt_irrefl _ hlt
  listed := by
    rintro ⟨id, region⟩ he
    obtain ⟨c, found, hmining⟩ := (Roster.mem_activeMiners_iff hwell.roster).1 he
    exact ⟨c, found, .inl hmining⟩
  waiting := fun id c region found hmining _ ↦
    (Roster.mem_activeMiners_iff hwell.roster).2 ⟨c, found, hmining⟩

end GameState

/-! ## The closed form -/

/-- Extraction shared out the deposits among their miners. -/
structure GameState.SharedOut (rate : UInt64) (s : GameState)
    (shares : List (CharacterId × UInt64)) (s' : GameState) : Prop where
  /-- Each miner has one share. -/
  ascending : Ascending shares
  miners : ∀ id, (∃ n, (id, n) ∈ shares) ↔
    ∃ c region, s.roster.get? id = some c ∧ c.mining = .mining region
  /-- The miners of a region take turns by number. -/
  turns : ∀ region, ((s.roster.minersOf region).Pairwise fun a b ↦ rank a < rank b) ∧
    ∀ id, id ∈ s.roster.minersOf region ↔
      ∃ c, s.roster.get? id = some c ∧ c.mining = .mining region
  /-- Each gets what those before it have left, up to the rate, and mines on if there is more. -/
  share : ∀ region i id, (s.roster.minersOf region)[i]? = some id →
    ∃ n c c', (id, n) ∈ shares ∧
      n.toNat = min rate.toNat ((s.deposits.remaining region).toNat - i * rate.toNat) ∧
      s.roster.get? id = some c ∧ s'.roster.get? id = some c' ∧
      c' = { c with
        inventory := c'.inventory
        mining := if s'.deposits.remaining region = 0 then .idle else .mining region } ∧
      ∀ x, (c'.inventory.amount x).toNat = (c.inventory.amount x).toNat +
        if s.deposits.type? region = some x then n.toNat else 0
  left : ∀ region, (s'.deposits.remaining region).toNat =
    (s.deposits.remaining region).toNat - (s.roster.minersOf region).length * rate.toNat
  /-- Records lose the units, and the type with the last one. -/
  record? : ∀ region, s'.deposits.record? region =
    (s.deposits.record? region).map fun record ↦ { record with
      remaining := s'.deposits.remaining region
      resource := if s'.deposits.remaining region = 0 then none else record.resource }
  unmined : ∀ region, s.roster.minersOf region = [] →
    s'.deposits.record? region = s.deposits.record? region
  others : ∀ id, (∀ c region, s.roster.get? id = some c → c.mining ≠ .mining region) →
    s'.roster.get? id = s.roster.get? id
  same : s' = { s with
    deposits := ⟨s'.deposits.regions, s.deposits.prospected⟩
    roster := ⟨s'.roster.characters, s.roster.nextId⟩ }

namespace GameState.WorkedOff

variable {s s' : GameState} {rate : UInt64} {shares : List (CharacterId × UInt64)}
  {gain : CharacterId → Resource → Nat} {id : CharacterId} {region : RegionId}

/-- In the end exactly the miners of used up regions have stopped. -/
theorem mining_eq {queue : List (CharacterId × RegionId)} {c c' : Character}
    (h : s.WorkedOff rate queue gain shares s') (found' : s'.roster.get? id = some c')
    (hgained : c.Gained (gain id) (fun r ↦ s'.deposits.remaining r = 0) c')
    (hmining : c.mining = .mining region) :
    c'.mining = if s'.deposits.remaining region = 0 then .idle else .mining region := by
  rcases hgained.mining with hstay | ⟨region', hmining', hidle, hover⟩
  · have hmining' := hstay.trans hmining
    have hleft : s'.deposits.remaining region ≠ 0 := fun hzero ↦
      nomatch h.queued.waiting id c' region found' hmining' hzero
    rw [if_neg hleft, hmining']
  · cases hmining.symm.trans hmining'
    rw [if_pos hover, hidle]

theorem record?_eq {queue : List (CharacterId × RegionId)}
    (h : s.WorkedOff rate queue gain shares s') (region : RegionId) :
    s'.deposits.record? region = (s.deposits.record? region).map fun record ↦ { record with
      remaining := s'.deposits.remaining region
      resource := if s'.deposits.remaining region = 0 then none else record.resource } := by
  obtain ⟨n, -, -, hrecord⟩ := h.extracted.deposits.record? region
  cases hbefore : s.deposits.record? region with
  | none => rw [hrecord, hbefore, Option.map_none, Option.map_none]
  | some record =>
    rw [hbefore] at hrecord
    have hleft := h.queued.typed.remaining_eq hrecord
    rw [hrecord, Option.map_some, Option.map_some, hleft]
    rfl

/-- Whoever does not mine is as it was. -/
theorem get?_of_absent {queue : List (CharacterId × RegionId)}
    (h : s.WorkedOff rate queue gain shares s') (hwell : s.WellFormed) (hwell' : s'.WellFormed)
    (hid : id ∉ queue.map (·.1))
    (hidle : ∀ c region, s.roster.get? id = some c → c.mining ≠ .mining region) :
    s'.roster.get? id = s.roster.get? id := by
  cases found : s.roster.get? id with
  | none =>
    cases found' : s'.roster.get? id with
    | none => rfl
    | some c' =>
      obtain ⟨c, hc, -⟩ := h.extracted.roster.get?_before found'
      cases found.symm.trans hc
  | some c =>
    obtain ⟨c', found', hgained⟩ := h.extracted.roster.get? found
    have hmining : c'.mining = c.mining := by
      rcases hgained.mining with hstay | ⟨region, hmining, -⟩
      · exact hstay
      · exact absurd hmining (hidle c region found)
    have hinventory : c'.inventory = c.inventory := by
      apply Bundle.Positive.eq_of_amount (hwell'.roster.positive id c' found')
        (hwell.roster.positive id c found)
      intro x
      apply UInt64.toNat_inj.1
      rw [hgained.amount, h.absent id hid, Nat.add_zero]
    rw [found', hgained.same, hmining, hinventory]

theorem sharedOut (h : s.WorkedOff rate s.roster.activeMiners gain shares s')
    (hwell : s.WellFormed) (htyped : s.deposits.Typed) (hwell' : s'.WellFormed) :
    s.SharedOut rate shares s' where
  ascending := by
    have hids := Roster.activeMiners_pairwise hwell.roster
    rw [← h.ids, List.pairwise_map] at hids
    exact hids
  miners := by
    intro id
    have hkeys : (∃ n, (id, n) ∈ shares) ↔ id ∈ shares.map (·.1) := by simp
    have hqueue : (∃ region, (id, region) ∈ s.roster.activeMiners) ↔
        id ∈ s.roster.activeMiners.map (·.1) := by simp
    rw [hkeys, h.ids, ← hqueue, exists_comm]
    simp only [Roster.mem_activeMiners_iff hwell.roster]
  turns := by
    intro region
    constructor
    · rw [← s.roster.minersIn_activeMiners]
      exact (Roster.activeMiners_pairwise hwell.roster).sublist (List.filter_sublist.map _)
    · intro id
      rw [Roster.mem_minersOf_iff hwell.roster]
      simp [Roster.stance?, Character.stance]
  share := by
    intro region i id hi
    obtain ⟨n, hmem, hshare, hgain⟩ := h.place region i id
      (by rw [s.roster.minersIn_activeMiners, hi])
    obtain ⟨st, hst, hmining⟩ := (Roster.mem_minersOf_iff hwell.roster).1 (List.mem_of_getElem? hi)
    obtain ⟨c, found, rfl⟩ := Option.map_eq_some_iff.1 hst
    obtain ⟨c', found', hgained⟩ := h.extracted.roster.get? found
    refine ⟨n, c, c', hmem, hshare, found, found', ?_, fun x ↦ ?_⟩
    · rw [← h.mining_eq found' hgained hmining]
      exact hgained.same
    · rw [hgained.amount, hgain, GameState.credited]
      simp only [true_and]
  left := by
    intro region
    have hleft := h.extracted.deposits.remaining htyped region
    rw [s.roster.minersIn_activeMiners] at hleft
    omega
  record? := h.record?_eq
  unmined := by
    intro region hnone
    obtain ⟨n, hn, -, hrecord⟩ := h.extracted.deposits.record? region
    rw [s.roster.minersIn_activeMiners, hnone, List.length_nil, Nat.zero_mul, Nat.zero_min] at hn
    have hzero : n = 0 := Word.eq_zero_of_toNat hn
    rw [hrecord, hzero]
    cases hbefore : s.deposits.record? region with
    | none => rfl
    | some record => rw [Option.map_some, (htyped region record hbefore).without_zero]
  others := by
    intro id hidle
    refine h.get?_of_absent hwell hwell' ?_ hidle
    intro hid
    obtain ⟨e, he, rfl⟩ := List.mem_map.1 hid
    obtain ⟨c, found, hmining⟩ := (Roster.mem_activeMiners_iff hwell.roster).1 he
    exact hidle c e.2 found hmining
  same := by
    have hprospected := h.extracted.deposits.prospected
    have hnext := h.extracted.roster.nextId
    rw [← hprospected, ← hnext]
    exact h.extracted.same

end GameState.WorkedOff

theorem Turn.sharedOut_of_ok {rate : UInt64} {p p' : Progress}
    {shares : List (CharacterId × UInt64)} (h : Turn.extraction rate p = .ok shares p')
    (hs : p.state.Tidy) : p.state.SharedOut rate shares p'.state := by
  have hleads : Leads p.state (Turn.extraction rate) fun shares s' ↦
      ∃ gain, p.state.WorkedOff rate p.state.roster.activeMiners gain shares s' :=
    Leads.withState fun _ ↦ queue_leads rate (GameState.queued_activeMiners hs.wellFormed hs.typed)
  obtain ⟨hwell, gain, hworked⟩ := hleads.of_ok ⟨hs.wellFormed, rfl⟩ h
  exact hworked.sharedOut hs.wellFormed hs.typed hwell

namespace Sample

end Sample

end MiningGame
