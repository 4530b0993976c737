import MiningGame.Proofs.Acting

/-!
# The interface of the world tables

The operations of the ground loot and of the deposits, and those that take their changes back, may
be called in any order and with any arguments; whatever a call that breaks off has changed stays
changed. No pile is then empty and nothing was prospected
zero times. All amounts in piles are positive, and records name a type exactly while units are left,
as long as no call takes back that nothing was picked up or extracted: of a resource that is not
there, such a call lists zero units (`interfaces_form_iff`).
-/

namespace MiningGame

/-- An invariant that a step keeps unless it is a bad one holds all along a list of steps exactly if
none of them is bad when it is taken. -/
theorem foldl_invariant_iff {σ γ : Type} {step : σ → γ → σ} {I : σ → Prop} {Bad : σ → γ → Prop}
    {s : σ} (hs : I s) (hstep : ∀ s c, I s → (I (step s c) ↔ ¬ Bad s c)) (calls : List γ) :
    (∀ n, I ((calls.take n).foldl step s)) ↔
      ∀ n c, calls[n]? = some c → ¬ Bad ((calls.take n).foldl step s) c := by
  have hnext : ∀ n c, calls[n]? = some c →
      (calls.take (n + 1)).foldl step s = step ((calls.take n).foldl step s) c := by
    intro n c hc
    rw [List.take_add_one, hc, Option.toList_some, List.foldl_append]
    rfl
  constructor
  · intro hall n c hc
    rw [← hstep _ c (hall n), ← hnext n c hc]
    exact hall (n + 1)
  · intro hgood n
    induction n with
    | zero => exact hs
    | succ n ih =>
      cases hc : calls[n]? with
      | none =>
        rw [List.take_add_one, hc, Option.toList_none, List.append_nil]
        exact ih
      | some c =>
        rw [hnext n c hc]
        exact (hstep _ c ih).2 (hgood n c hc)

/-- What holds before a call and after one that succeeds holds after the call. -/
theorem getD_of_ok {ε σ : Type} {P : σ → Prop} {s : σ} {x : Except ε σ} (hs : P s)
    (hok : ∀ s', x = .ok s' → P s') : P (x.toOption.getD s) := by
  cases x with
  | error e => exact hs
  | ok s' => exact hok s' rfl

theorem exists_of_map_state {ε σ α : Type} {x : Except ε (Recorded σ α)} {s : σ}
    (h : x.map Recorded.state = .ok s) : ∃ out, x = .ok out ∧ out.state = s := by
  cases x with
  | error e => cases h
  | ok out =>
    cases h
    exact ⟨out, rfl, rfl⟩

/-! ## Ground loot -/

namespace GroundLoot

inductive Call where
  | dropAt (position : Coord) (resource : Resource) (amount : UInt64)
  | pickUp (position : Coord) (resource : Resource) (requested : UInt64)
  | restoreDropped (position : Coord) (resource : Resource) (amount : UInt64)
  | restorePickedUp (position : Coord) (resource : Resource) (amount : UInt64)

/-- A call in place. -/
def Call.edit : Call → Edit WorldError GroundLoot Unit
  | dropAt position resource amount => (Recording.dropAt position resource amount).alone
  | pickUp position resource requested => (Recording.pickUp position resource requested).alone
  | restoreDropped position resource amount => lower position resource amount
  | restorePickedUp position resource amount => raise position resource amount

/-- The ground after a call, whether it succeeds or breaks off. -/
def after (l : GroundLoot) (c : Call) : GroundLoot := ending (c.edit l)

def afterAll (calls : List Call) : GroundLoot := calls.foldl after empty

/-- The call takes back that nothing was picked up, where nothing of the resource lies. -/
def Spoils (l : GroundLoot) : Call → Prop
  | .restorePickedUp position resource amount => amount = 0 ∧ l.amountAt position resource = 0
  | _ => False

variable {l : GroundLoot} {position : Coord} {resource : Resource}

/-- The ground that a call answers, worked out beside the one there is. -/
def attempt (l : GroundLoot) : Call → Except WorldError GroundLoot
  | .dropAt position resource amount => (l.dropAt position resource amount).map Recorded.state
  | .pickUp position resource requested => .ok (l.pickUp position resource requested).state
  | .restoreDropped position resource amount => l.restoreDropped position resource amount
  | .restorePickedUp position resource amount => l.restorePickedUp position resource amount

theorem Call.edit_eq (c : Call) : c.edit = .ofAnswer fun l ↦ l.attempt c := by
  cases c with
  | dropAt position resource amount =>
    rw [edit, Recording.dropAt_eq]
    exact Recording.alone_ofAnswer _
  | pickUp position resource requested =>
    rw [edit, Recording.pickUp_eq]
    exact Recording.alone_ofAnswer _
  | restoreDropped position resource amount => exact lower_eq position resource amount
  | restorePickedUp position resource amount => exact raise_eq position resource amount

/-- A call that breaks off leaves no trace. -/
theorem after_eq (l : GroundLoot) (c : Call) : l.after c = (l.attempt c).toOption.getD l := by
  rw [after, c.edit_eq, Edit.ending_ofAnswer]

/-- Adding nothing where nothing is lists a zero amount. -/
theorem add_zero_of_amountAt (h : l.amountAt position resource = 0) :
    l.add position resource 0 =
      .ok ⟨l.piles.insert position ((l.pileAt position).insert resource 0)⟩ := by
  rw [add, h]
  rfl

theorem not_wellFormed_insert_zero (pile : Bundle) :
    ¬ WellFormed ⟨l.piles.insert position (pile.insert resource 0)⟩ := by
  intro h
  have hpile := h position _ (Table.get?_insert_self l.piles position _)
  exact hpile.2 resource (Table.get?_insert_self pile resource 0)

/-- No position holds an empty pile. -/
def Occupied (l : GroundLoot) : Prop := ∀ position, l.piles.get? position ≠ some ∅

theorem Occupied.setPile (hl : l.Occupied) (position : Coord) (pile : Bundle) :
    (l.setPile position pile).Occupied := by
  intro position'
  rw [setPile_eq, Table.get?_set]
  split
  · split
    · exact nofun
    · next hne =>
      intro h
      cases h
      exact hne rfl
  · exact hl position'

theorem Occupied.remove (hl : l.Occupied) {l' : GroundLoot} {amount : UInt64}
    (h : l.remove position resource amount = .ok l') : l'.Occupied := by
  obtain ⟨left, -, rfl⟩ := remove_eq_ok_iff.1 h
  exact hl.setPile _ _

theorem Occupied.add (hl : l.Occupied) {l' : GroundLoot} {amount : UInt64}
    (h : l.add position resource amount = .ok l') : l'.Occupied := by
  intro position'
  cases hsum : Word.add? (l.amountAt position resource) amount with
  | none =>
    rw [GroundLoot.add, hsum] at h
    cases h
  | some total =>
    rw [GroundLoot.add, hsum] at h
    cases h
    rw [Table.get?_insert]
    split
    · intro h
      have hget := Table.get?_insert_self (l.pileAt position) resource total
      rw [Option.some.inj h] at hget
      cases hget
    · exact hl position'

theorem Change.occupied {l' : GroundLoot} {δ : UndoDelta} (h : Change l δ l') (hl : l.Occupied) :
    l'.Occupied := by
  cases h <;> exact hl.setPile _ _

theorem Occupied.attempt (hl : l.Occupied) {l' : GroundLoot} (c : Call)
    (h : l.attempt c = .ok l') : l'.Occupied := by
  have hkeeps {δs : List UndoDelta} {l' : GroundLoot} (h : History Change l δs l') :
      l'.Occupied := h.keeps (fun _ _ _ ↦ Change.occupied) hl
  cases c with
  | dropAt position resource amount =>
    obtain ⟨out, hout, rfl⟩ := exists_of_map_state h
    exact hkeeps (dropAt_history hout)
  | pickUp position resource requested =>
    cases h
    exact hkeeps (l.pickUp_history _ _ _)
  | restoreDropped position resource amount => exact hl.remove h
  | restorePickedUp position resource amount => exact hl.add h

theorem Occupied.after (hl : l.Occupied) (c : Call) : (l.after c).Occupied := by
  rw [after_eq]
  exact getD_of_ok hl fun _ ↦ hl.attempt c

theorem WellFormed.remove (hl : l.WellFormed) {l' : GroundLoot} {amount : UInt64}
    (h : l.remove position resource amount = .ok l') : l'.WellFormed := by
  obtain ⟨left, -, rfl⟩ := remove_eq_ok_iff.1 h
  exact hl.setPile _ ((hl.pileAt _).withAmount _ _)

theorem WellFormed.add_iff (hl : l.WellFormed) {l' : GroundLoot} {amount : UInt64}
    (h : l.add position resource amount = .ok l') :
    l'.WellFormed ↔ ¬ (amount = 0 ∧ l.amountAt position resource = 0) := by
  cases hsum : Word.add? (l.amountAt position resource) amount with
  | none =>
    rw [add, hsum] at h
    cases h
  | some total =>
    by_cases htotal : total = 0
    · rw [htotal] at hsum
      obtain ⟨hhere, rfl⟩ := Word.add?_eq_some_zero_iff.1 hsum
      rw [add_zero_of_amountAt hhere] at h
      cases h
      exact iff_of_false (not_wellFormed_insert_zero _) (not_not_intro ⟨rfl, hhere⟩)
    · rw [add_eq_ok_of_total htotal hsum] at h
      cases h
      refine iff_of_true (hl.setPile _ ((hl.pileAt _).withAmount _ _)) ?_
      rintro ⟨hamount, hhere⟩
      rw [Word.add?_eq_some_zero_iff.2 ⟨hhere, hamount⟩] at hsum
      exact htotal (Option.some.inj hsum).symm

theorem WellFormed.after_iff (hl : l.WellFormed) (c : Call) :
    (l.after c).WellFormed ↔ ¬ l.Spoils c := by
  have hkeeps {δs : List UndoDelta} {l' : GroundLoot} (h : History Change l δs l') :
      l'.WellFormed := h.keeps (fun _ _ _ ↦ Change.wellFormed) hl
  rw [after_eq]
  cases c with
  | dropAt position resource amount =>
    refine iff_of_true (getD_of_ok hl fun l' h ↦ ?_) id
    obtain ⟨out, hout, rfl⟩ := exists_of_map_state h
    exact hkeeps (dropAt_history hout)
  | pickUp position resource requested => exact iff_of_true (hkeeps (l.pickUp_history _ _ _)) id
  | restoreDropped position resource amount =>
    exact iff_of_true (getD_of_ok hl fun _ ↦ hl.remove) id
  | restorePickedUp position resource amount =>
    cases hrun : l.restorePickedUp position resource amount with
    | ok l' =>
      rw [attempt, hrun]
      exact hl.add_iff hrun
    | error e =>
      rw [attempt, hrun]
      refine iff_of_true hl ?_
      rintro ⟨rfl, hhere⟩
      cases (add_zero_of_amountAt hhere).symm.trans hrun

end GroundLoot

/-! ## Deposits -/

namespace Deposits

/-- A record that is put back has to be one that a table may hold. -/
inductive Call where
  | assign (region : RegionId) (resource : Resource) (amount : UInt64) (prospection : Prospection)
  | extract (region : RegionId) (amount : UInt64)
  | restoreProspected (region : RegionId) (previous : Option { r : RegionRecord // r.Typed })
      (resource : Resource) (amount : UInt64)
  | restoreExtracted (region : RegionId) (resource : Resource) (amount : UInt64)

/-- A call in place. -/
def Call.edit : Call → Edit WorldError Deposits Unit
  | assign region resource amount prospection =>
    (Recording.assign region resource amount prospection).alone
  | extract region amount => (Recording.extract region amount).alone
  | restoreProspected region previous resource amount =>
    unassign region (previous.map Subtype.val) resource amount
  | restoreExtracted region resource amount => unextract region resource amount

/-- The deposits after a call, whether it succeeds or breaks off. -/
def after (d : Deposits) (c : Call) : Deposits := ending (c.edit d)

def afterAll (calls : List Call) : Deposits := calls.foldl after empty

/-- The call takes back that nothing was extracted, from a region without deposit. -/
def Spoils (d : Deposits) : Call → Prop
  | .restoreExtracted region _ amount =>
    amount = 0 ∧ ∃ record, d.record? region = some record ∧ record.resource = none
  | _ => False

/-- Records name a type exactly while units are left, so the regions that can be mined are those
that report a deposit. -/
structure Formed (d : Deposits) : Prop where
  typed : d.Typed
  mineable : ∀ region,
    (d.record? region).any RegionRecord.isMineable = (d.resource? region).isSome

variable {d d' : Deposits} {region : RegionId} {resource : Resource} {amount : UInt64}

/-- The deposits that a call answers, worked out beside those there are. -/
def attempt (d : Deposits) : Call → Except WorldError Deposits
  | .assign region resource amount prospection =>
    (d.assign region resource amount prospection).map Recorded.state
  | .extract region amount => .ok (d.extract region amount).state
  | .restoreProspected region previous resource amount =>
    d.restoreProspected region (previous.map Subtype.val) resource amount
  | .restoreExtracted region resource amount => d.restoreExtracted region resource amount

theorem Call.edit_eq (c : Call) : c.edit = .ofAnswer fun d ↦ d.attempt c := by
  cases c with
  | assign region resource amount prospection =>
    rw [edit, Recording.assign_eq]
    exact Recording.alone_ofAnswer _
  | extract region amount =>
    rw [edit, Recording.extract_eq]
    exact Recording.alone_ofAnswer _
  | restoreProspected region previous resource amount => exact unassign_eq region _ resource amount
  | restoreExtracted region resource amount => exact unextract_eq region resource amount

/-- A call that breaks off leaves no trace. -/
theorem after_eq (d : Deposits) (c : Call) : d.after c = (d.attempt c).toOption.getD d := by
  rw [after, c.edit_eq, Edit.ending_ofAnswer]

theorem Typed.formed (hd : d.Typed) : d.Formed := ⟨hd, hd.any_isMineable⟩

theorem Typed.set (hd : d.Typed) (region : RegionId) {previous : Option RegionRecord}
    (hprevious : ∀ r, previous = some r → r.Typed) (prospected : Bundle) :
    Typed ⟨d.regions.set region previous, prospected⟩ := by
  intro region' r hget
  change (d.regions.set region previous).get? region' = some r at hget
  rw [Table.get?_set] at hget
  split at hget
  · exact hprevious r hget
  · exact hd region' r hget

theorem restoreProspected_eq_ok_iff {previous : Option RegionRecord} :
    d.restoreProspected region previous resource amount = .ok d' ↔
      ∃ current left, d.record? region = some current ∧ current.resource = some resource ∧
        current.remaining = amount ∧ Word.sub? (d.prospected.amount resource) amount = some left ∧
        d' = ⟨d.regions.set region previous, d.prospected.withAmount resource left⟩ := by
  constructor
  · intro h
    cases hrecord : d.record? region with
    | none => simp [restoreProspected, hrecord] at h
    | some current =>
      by_cases hmatch : current.resource ≠ some resource ∨ current.remaining ≠ amount
      · simp [restoreProspected, hrecord, hmatch] at h
      · obtain ⟨hresource, hremaining⟩ := not_or.1 hmatch
        cases hleft : Word.sub? (d.prospected.amount resource) amount with
        | none => simp [restoreProspected, hrecord, hmatch, hleft] at h
        | some left =>
          rw [restoreProspected_eq_ok hrecord (not_not.1 hresource) (not_not.1 hremaining)
            hleft] at h
          exact ⟨current, left, rfl, not_not.1 hresource, not_not.1 hremaining, rfl,
            (Except.ok.inj h).symm⟩
  · rintro ⟨current, left, hrecord, hresource, hremaining, hleft, rfl⟩
    exact restoreProspected_eq_ok hrecord hresource hremaining hleft previous

theorem restoreExtracted_eq_ok_iff :
    d.restoreExtracted region resource amount = .ok d' ↔
      ∃ current total, d.record? region = some current ∧
        (∀ r, current.resource = some r → r = resource) ∧
        Word.add? current.remaining amount = some total ∧
        d' = ⟨d.regions.insert region ⟨some resource, total, current.prospection⟩,
          d.prospected⟩ := by
  constructor
  · intro h
    cases hrecord : d.record? region with
    | none => simp [restoreExtracted, hrecord] at h
    | some current =>
      by_cases htype : ∀ r, current.resource = some r → r = resource
      · cases htotal : Word.add? current.remaining amount with
        | none => cases hresource : current.resource <;>
            simp_all [restoreExtracted]
        | some total =>
          rw [restoreExtracted_eq_ok hrecord htype htotal] at h
          exact ⟨current, total, rfl, htype, htotal, (Except.ok.inj h).symm⟩
      · cases hresource : current.resource <;> simp_all [restoreExtracted]
  · rintro ⟨current, total, hrecord, htype, htotal, rfl⟩
    exact restoreExtracted_eq_ok hrecord htype htotal

theorem Typed.restoreProspected (hd : d.Typed) {previous : Option { r : RegionRecord // r.Typed }}
    (h : d.restoreProspected region (previous.map Subtype.val) resource amount = .ok d') :
    d'.Typed := by
  obtain ⟨current, left, -, -, -, -, rfl⟩ := restoreProspected_eq_ok_iff.1 h
  apply hd.set
  intro r hr
  obtain ⟨before, -, rfl⟩ := Option.map_eq_some_iff.1 hr
  exact before.2

/-- Only if nothing comes back and nothing was left, the type is named without units. -/
theorem Typed.restoreExtracted_iff (hd : d.Typed)
    (h : d.restoreExtracted region resource amount = .ok d') :
    d'.Typed ↔ ¬ d.Spoils (.restoreExtracted region resource amount) := by
  obtain ⟨current, total, hrecord, -, htotal, rfl⟩ := restoreExtracted_eq_ok_iff.1 h
  have htyped : current.resource = none ↔ current.remaining = 0 :=
    RegionRecord.typed_iff.1 (hd region current hrecord)
  by_cases hzero : total = 0
  · rw [hzero] at htotal
    obtain ⟨hleft, hamount⟩ := Word.add?_eq_some_zero_iff.1 htotal
    refine iff_of_false ?_ (not_not_intro ⟨hamount, current, hrecord, htyped.2 hleft⟩)
    intro hafter
    have hsome := (hafter region _ (Table.get?_insert_self d.regions region _)).1 rfl
    exact hsome hzero
  · refine iff_of_true (hd.insert region (RegionRecord.typed_some resource hzero _) _) ?_
    rintro ⟨hamount, record, hrecord', hnone⟩
    cases hrecord.symm.trans hrecord'
    rw [Word.add?_eq_some_zero_iff.2 ⟨htyped.1 hnone, hamount⟩] at htotal
    exact hzero (Option.some.inj htotal).symm

theorem Typed.after_iff (hd : d.Typed) (c : Call) : (d.after c).Typed ↔ ¬ d.Spoils c := by
  have hkeeps {δs : List UndoDelta} {d' : Deposits} (h : History Change d δs d') : d'.Typed :=
    h.keeps (fun _ _ _ ↦ Change.typed) hd
  rw [after_eq]
  cases c with
  | assign region resource amount prospection =>
    refine iff_of_true (getD_of_ok hd fun d' h ↦ ?_) id
    obtain ⟨out, hout, rfl⟩ := exists_of_map_state h
    exact hkeeps (assign_history hout)
  | extract region amount => exact iff_of_true (hkeeps (d.extract_history _ _)) id
  | restoreProspected region previous resource amount =>
    exact iff_of_true (getD_of_ok hd fun _ ↦ hd.restoreProspected) id
  | restoreExtracted region resource amount =>
    cases hrun : d.restoreExtracted region resource amount with
    | ok d' =>
      rw [attempt, hrun]
      exact hd.restoreExtracted_iff hrun
    | error e =>
      rw [attempt, hrun]
      refine iff_of_true hd ?_
      rintro ⟨rfl, record, hrecord, hnone⟩
      have hback : d.restoreExtracted region resource 0 = .ok _ :=
        restoreExtracted_eq_ok hrecord (by simp [hnone]) (Word.add?_zero record.remaining)
      cases hback.symm.trans hrun

theorem WellFormed.after (hd : d.WellFormed) (c : Call) : (d.after c).WellFormed := by
  have hkeeps {δs : List UndoDelta} {d' : Deposits} (h : History Change d δs d') :
      d'.WellFormed := h.keeps (fun _ _ _ ↦ Change.wellFormed) hd
  rw [after_eq]
  cases c with
  | assign region resource amount prospection =>
    refine getD_of_ok hd fun d' h ↦ ?_
    obtain ⟨out, hout, rfl⟩ := exists_of_map_state h
    exact hkeeps (assign_history hout)
  | extract region amount => exact hkeeps (d.extract_history _ _)
  | restoreProspected region previous resource amount =>
    refine getD_of_ok hd fun d' hrun ↦ ?_
    obtain ⟨current, left, -, -, -, -, rfl⟩ := restoreProspected_eq_ok_iff.1 hrun
    exact Bundle.Positive.withAmount hd resource left
  | restoreExtracted region resource amount =>
    refine getD_of_ok hd fun d' hrun ↦ ?_
    obtain ⟨current, total, -, -, -, rfl⟩ := restoreExtracted_eq_ok_iff.1 hrun
    exact hd

end Deposits

/-- Whatever is called, no pile is ever empty and nothing was prospected zero times. Amounts in
piles stay positive, and types stay with the units that are left, exactly as long as no call takes
back a pick-up or an extraction of nothing where nothing of the resource is. -/
theorem interfaces_form_iff (ls : List GroundLoot.Call) (ds : List Deposits.Call) :
    (GroundLoot.afterAll ls).Occupied ∧ (Deposits.afterAll ds).WellFormed ∧
      ((∀ n, (GroundLoot.afterAll (ls.take n)).WellFormed) ↔
        ∀ n c, ls[n]? = some c → ¬ (GroundLoot.afterAll (ls.take n)).Spoils c) ∧
      ((∀ n, (Deposits.afterAll (ds.take n)).Formed) ↔
        ∀ n c, ds[n]? = some c → ¬ (Deposits.afterAll (ds.take n)).Spoils c) := by
  refine ⟨?_, ?_, ?_, ?_⟩
  · exact List.foldlRecOn ls GroundLoot.after (fun position ↦ nofun) fun l hl c _ ↦ hl.after c
  · exact List.foldlRecOn ds Deposits.after Bundle.positive_empty fun d hd c _ ↦ hd.after c
  · apply foldl_invariant_iff
    · exact fun position pile ↦ nofun
    · exact fun l c hl ↦ hl.after_iff c
  · apply foldl_invariant_iff
    · exact Deposits.Typed.formed fun region r ↦ nofun
    · intro d c hd
      rw [← hd.typed.after_iff c]
      exact ⟨Deposits.Formed.typed, Deposits.Typed.formed⟩

/-- Taking back that nothing was picked up makes a pile that lists zero units; taking back that
nothing was extracted names the type of a deposit that is used up. -/
theorem zero_restored_spoils :
    ¬ (GroundLoot.afterAll [.restorePickedUp ⟨0, 0⟩ .rawA 0]).WellFormed ∧
      ¬ (Deposits.afterAll [.assign ⟨3⟩ .rawA 5 ⟨⟨1⟩, 1⟩, .extract ⟨3⟩ 5,
        .restoreExtracted ⟨3⟩ .rawA 0]).Formed := by
  constructor
  · intro h
    exact (h ⟨0, 0⟩ _ rfl).2 .rawA (by decide)
  · intro h
    exact (h.typed ⟨3⟩ _ rfl).1 rfl (by decide)

end MiningGame
