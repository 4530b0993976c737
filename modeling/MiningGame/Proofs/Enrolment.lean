import MiningGame.Proofs.Interface

/-!
# The interface of the roster

The operations of the roster, and those that take their changes back, may be called in any order
and with any arguments, also for characters that never were and for creations that are not the
latest. The characters are then numbered from one without gaps, each is kept under its own number,
no owner has two of one name, and nobody carries zero units of anything
(`Roster.afterAll_enrolled`). So a new character gets the number of all characters plus one, and a
number that a creation was taken back from is given out again.
-/

namespace MiningGame

/-- What a character is known by, which never changes. -/
def Character.identity (c : Character) : CharacterId × String × String := (c.id, c.owner, c.name)

namespace Roster

/-- The roster is well-formed, its numbers have no gaps, and no owner has two characters of one
name. -/
structure Enrolled (r : Roster) : Prop where
  wellFormed : r.WellFormed
  dense : r.Dense
  named : ∀ id id' c c', r.get? id = some c → r.get? id' = some c' →
    c.owner = c'.owner → c.name = c'.name → id = id'

inductive Call where
  | create (owner name : String) (position : Coord)
  | setWaypoints (id : CharacterId) (places : List Coord)
  | setPosition (id : CharacterId) (place : Coord)
  | credit (id : CharacterId) (resource : Resource) (amount : UInt64)
  | debit (id : CharacterId) (resource : Resource) (amount : UInt64)
  /-- Mining may be started on any map and against any deposits. -/
  | startMining (grid : Grid) (deposits : Deposits) (id : CharacterId) (region : RegionId)
  | stopMining (id : CharacterId)
  | stopRegion (region : RegionId)
  | restoreCreated (id : CharacterId)
  | restoreMining (id : CharacterId) (previous : MiningStatus)
  | restoreWaypoints (id : CharacterId) (previous : List Coord)
  | restorePosition (id : CharacterId) (previous : Coord)
  | restoreCredited (id : CharacterId) (resource : Resource) (amount : UInt64)
  | restoreDebited (id : CharacterId) (resource : Resource) (amount : UInt64)

/-- A call in place. -/
def Call.edit : Call → Edit CharacterError Roster Unit
  | create owner name position => (Recording.create owner name position).alone
  | setWaypoints id places => (Recording.setWaypoints id places).alone
  | setPosition id place => (Recording.setPosition id place).alone
  | credit id resource amount => (Recording.credit id resource amount).alone
  | debit id resource amount => (Recording.debit id resource amount).alone
  | startMining grid deposits id region => (Recording.startMining grid deposits id region).alone
  | stopMining id => (Recording.stopMining id).alone
  | stopRegion region => (Recording.stopRegion region).alone
  | restoreCreated id => uncreate id
  | restoreMining id previous => setBack .mining id previous
  | restoreWaypoints id previous => setBack .waypoints id previous
  | restorePosition id previous => setBack .position id previous
  | restoreCredited id resource amount => uncredit id resource amount
  | restoreDebited id resource amount => undebit id resource amount

/-- The roster after a call, whether it succeeds or breaks off. -/
def after (r : Roster) (c : Call) : Roster := ending (c.edit r)

def afterAll (calls : List Call) : Roster := calls.foldl after empty

/-- The roster that a call answers, worked out beside the one there is. -/
def attempt (r : Roster) : Call → Except CharacterError Roster
  | .create owner name position => (r.create owner name position).map Recorded.state
  | .setWaypoints id places => (r.setWaypoints id places).map Recorded.state
  | .setPosition id place => (r.setPosition id place).map Recorded.state
  | .credit id resource amount => (r.credit id resource amount).map Recorded.state
  | .debit id resource amount => (r.debit id resource amount).map Recorded.state
  | .startMining grid deposits id region =>
    (r.startMining grid deposits id region).map Recorded.state
  | .stopMining id => (r.stopMining id).map Recorded.state
  | .stopRegion region => (r.stopRegion region).map Recorded.state
  | .restoreCreated id => r.restoreCreated id
  | .restoreMining id previous => r.restoreMining id previous
  | .restoreWaypoints id previous => r.restoreWaypoints id previous
  | .restorePosition id previous => r.restorePosition id previous
  | .restoreCredited id resource amount => r.restoreCredited id resource amount
  | .restoreDebited id resource amount => r.restoreDebited id resource amount

variable {r r' : Roster} {id : CharacterId} {c c' : Character} {resource : Resource}
  {amount : UInt64}

/-! ### Calls that break off -/

/-- All calls but one leave no trace where they break off, whatever the roster. -/
theorem Call.edit_eq {call : Call} (h : ∀ region, call ≠ .stopRegion region) :
    call.edit = .ofAnswer fun r ↦ r.attempt call := by
  cases call with
  | create owner name position =>
    rw [edit, Recording.create_eq]
    exact Recording.alone_ofAnswer _
  | setWaypoints id places =>
    rw [edit, Recording.setWaypoints_eq]
    exact Recording.alone_ofAnswer _
  | setPosition id place =>
    rw [edit, Recording.setPosition_eq]
    exact Recording.alone_ofAnswer _
  | credit id resource amount =>
    rw [edit, Recording.credit_eq]
    exact Recording.alone_ofAnswer _
  | debit id resource amount =>
    rw [edit, Recording.debit_eq]
    exact Recording.alone_ofAnswer _
  | startMining grid deposits id region =>
    rw [edit, Recording.startMining_eq]
    exact Recording.alone_ofAnswer _
  | stopMining id =>
    rw [edit, Recording.stopMining_eq]
    exact Recording.alone_ofAnswer _
  | stopRegion region => exact absurd rfl (h region)
  | restoreCreated id => exact uncreate_eq id
  | restoreMining id previous => exact setBack_eq .mining id previous
  | restoreWaypoints id previous => exact setBack_eq .waypoints id previous
  | restorePosition id previous => exact setBack_eq .position id previous
  | restoreCredited id resource amount => exact uncredit_eq id resource amount
  | restoreDebited id resource amount => exact undebit_eq id resource amount

/-- The miners of a region are stopped one by one, and all of them are known. -/
theorem after_eq (hr : r.WellFormed) (call : Call) :
    r.after call = (r.attempt call).toOption.getD r := by
  by_cases h : ∀ region, call ≠ .stopRegion region
  · rw [after, Call.edit_eq h, Edit.ending_ofAnswer]
  · obtain ⟨region, hregion⟩ := not_forall.1 h
    obtain rfl := not_not.1 hregion
    obtain ⟨out, hout, -⟩ := stopRegion_ok hr region
    have hrun := Recording.alone_of_ok (Recording.stopRegion_of_ok hout (.new 0))
    rw [after, Call.edit, hrun, attempt, hout]
    rfl

/-! ### Numbers -/

/-- The numbers given out, in words: from one up to the next one. -/
theorem Dense.ids_eq (h : r.Dense) :
    r.ids.map (fun id ↦ id.value.toNat) = List.range' 1 (r.nextId.value.toNat - 1) := by
  have hsorted : (r.ids.map fun id ↦ id.value.toNat).Pairwise (· < ·) :=
    List.pairwise_map.2 r.characters.keys_pairwise
  have hrange : (List.range' 1 (r.nextId.value.toNat - 1)).Pairwise (· < ·) :=
    List.pairwise_lt_range'
  have hmem : ∀ n, n ∈ r.ids.map (fun id ↦ id.value.toNat) ↔
      n ∈ List.range' 1 (r.nextId.value.toNat - 1) := by
    intro n
    have hpos := h.next_pos
    have hbound := r.nextId.value.toNat_lt_size
    rw [List.mem_map, List.mem_range'_1]
    constructor
    · rintro ⟨id, hid, rfl⟩
      have hlisted := (h.exists_iff id).1 (Table.mem_keys_iff.1 hid)
      omega
    · intro hn
      have hword : (UInt64.ofNat n).toNat = n :=
        UInt64.toNat_ofNat_of_lt' (by omega)
      refine ⟨⟨.ofNat n⟩, Table.mem_keys_iff.2 ((h.exists_iff _).2 ?_), hword⟩
      rw [hword]
      omega
  have hperm := (List.perm_ext_iff_of_nodup (hsorted.imp Nat.ne_of_lt)
    (hrange.imp Nat.ne_of_lt)).2 hmem
  exact hperm.eq_of_pairwise (fun a b _ _ hlt hgt ↦ absurd hlt (Nat.lt_asymm hgt)) hsorted hrange

theorem Dense.nextId_eq (h : r.Dense) : r.nextId.value.toNat = r.size + 1 := by
  have hlength : (r.ids.map fun id ↦ id.value.toNat).length = r.size := by
    rw [ids, Table.keys, List.length_map, List.length_map]
    rfl
  have hpos := h.next_pos
  rw [h.ids_eq, List.length_range'] at hlength
  omega

/-! ### What keeps the roster in order -/

theorem enrolled_empty : empty.Enrolled where
  wellFormed := (GameState.wellFormed_new ⟨1, by decide, by decide⟩).roster
  dense := (GameState.tidy_new ⟨1, by decide, by decide⟩).dense
  named := fun _ _ _ _ h ↦ nomatch h

/-- A character may change, as long as it stays who it is and carries no zero units. -/
theorem Enrolled.store (h : r.Enrolled) (found : r.get? id = some c)
    (hsame : c'.identity = c.identity) (hpositive : c'.inventory.Positive) :
    (r.store id c').Enrolled where
  wellFormed := h.wellFormed.store found (congrArg Prod.fst hsame) hpositive
  dense := h.dense.store found
  named := by
    have hback : ∀ k x, (r.store id c').get? k = some x →
        ∃ y, r.get? k = some y ∧ y.owner = x.owner ∧ y.name = x.name := by
      intro k x hx
      rw [get?_store] at hx
      split at hx
      · next hk =>
        cases hx
        have howner : c'.owner = c.owner := congrArg (fun who ↦ who.2.1) hsame
        have hname : c'.name = c.name := congrArg (fun who ↦ who.2.2) hsame
        exact ⟨c, hk ▸ found, howner.symm, hname.symm⟩
      · exact ⟨x, hx, rfl, rfl⟩
    intro k k' x x' hx hx' howner hname
    obtain ⟨y, hy, hyowner, hyname⟩ := hback k x hx
    obtain ⟨y', hy', hyowner', hyname'⟩ := hback k' x' hx'
    exact h.named k k' y y' hy hy' (by rw [hyowner, hyowner', howner])
      (by rw [hyname, hyname', hname])

theorem mem_toList_of_get? (found : r.get? id = some c) : c ∈ r.toList :=
  List.mem_map.2 ⟨(id, c), Table.get?_eq_some_iff.1 found, rfl⟩

theorem Change.enrolled {δ : UndoDelta} (hchange : Change r δ r') (h : r.Enrolled) :
    r'.Enrolled := by
  have hwell := hchange.wellFormed h.wellFormed
  have hdense := hchange.dense h.dense
  cases hchange with
  | @create next owner name position fresh following =>
    refine ⟨hwell, hdense, ?_⟩
    -- Whoever was there before has another name, or another owner.
    have hother : ∀ k x, r.get? k = some x → ¬ (x.owner = owner ∧ x.name = name) := by
      intro k x hx hboth
      have hx := List.any_eq_false.1 fresh x (mem_toList_of_get? hx)
      simp [hboth] at hx
    have hcases : ∀ k x, get? ⟨r.characters.insert r.nextId
        (.spawn r.nextId owner name position), next⟩ k = some x →
        k = r.nextId ∧ x = .spawn r.nextId owner name position ∨ r.get? k = some x := by
      intro k x hx
      change (r.characters.insert _ _).get? k = some x at hx
      rw [Table.get?_insert] at hx
      split at hx
      · next hk => exact .inl ⟨rank_injective hk, (Option.some.inj hx).symm⟩
      · exact .inr hx
    intro k k' x x' hx hx' howner hname
    rcases hcases k x hx with ⟨rfl, rfl⟩ | hold
    · rcases hcases k' x' hx' with ⟨rfl, -⟩ | hold'
      · rfl
      · exact absurd ⟨howner.symm, hname.symm⟩ (hother k' x' hold')
    · rcases hcases k' x' hx' with ⟨rfl, rfl⟩ | hold'
      · exact absurd ⟨howner, hname⟩ (hother k x hold)
      · exact h.named k k' x x' hold hold' howner hname
  | mining found =>
    have hpositive := h.wellFormed.positive _ _ found
    exact h.store found rfl hpositive
  | waypoints found =>
    have hpositive := h.wellFormed.positive _ _ found
    exact h.store found rfl hpositive
  | position found =>
    have hpositive := h.wellFormed.positive _ _ found
    exact h.store found rfl hpositive
  | credit found =>
    have hpositive := h.wellFormed.positive _ _ found
    exact h.store found rfl (hpositive.withAmount _ _)
  | debit found =>
    have hpositive := h.wellFormed.positive _ _ found
    exact h.store found rfl (hpositive.withAmount _ _)

theorem Logs.enrolled {α : Type} {f : Roster → Except CharacterError (Recorded Roster α)}
    (hlogs : Logs f) (h : r.Enrolled) (hrun : (f r).map Recorded.state = .ok r') :
    r'.Enrolled := by
  cases hout : f r with
  | error e =>
    rw [hout] at hrun
    cases hrun
  | ok out =>
    rw [hout] at hrun
    cases hrun
    exact (hlogs r out hout).keeps (fun _ _ _ ↦ Change.enrolled) h

/-! ### Taking changes back -/

theorem restoreCreated_eq_ok_iff : r.restoreCreated id = .ok r' ↔
    id.next? = some r.nextId ∧ (∃ c, r.get? id = some c) ∧ r' = ⟨r.characters.erase id, id⟩ := by
  unfold restoreCreated
  by_cases hnext : id.next? = some r.nextId
  · rw [if_neg (not_not_intro hnext), bind_eq_ok_iff]
    constructor
    · rintro ⟨c, hfind, h⟩
      cases h
      exact ⟨hnext, ⟨c, find_eq_ok_iff.1 hfind⟩, rfl⟩
    · rintro ⟨-, ⟨c, found⟩, rfl⟩
      exact ⟨c, find_eq_ok_iff.2 found, rfl⟩
  · rw [if_pos hnext]
    exact ⟨nofun, fun h ↦ absurd h.1 hnext⟩

theorem Enrolled.restoreCreated (h : r.Enrolled) (hrun : r.restoreCreated id = .ok r') :
    r'.Enrolled := by
  obtain ⟨hnext, hfound, rfl⟩ := restoreCreated_eq_ok_iff.1 hrun
  have hsucc := next?_eq_some_iff.1 hnext
  have hid := (h.dense.exists_iff id).1 hfound
  have hget : ∀ k, get? ⟨r.characters.erase id, id⟩ k = if k = id then none else r.get? k := by
    intro k
    change (r.characters.erase id).get? k = _
    rw [Table.get?_erase]
    simp only [rank_inj]
    rfl
  have hold : ∀ k x, get? ⟨r.characters.erase id, id⟩ k = some x →
      r.get? k = some x ∧ k ≠ id := by
    intro k x hx
    rw [hget] at hx
    split at hx
    · cases hx
    · next hk => exact ⟨hx, hk⟩
  have hlast : ∀ k, k.value.toNat < r.nextId.value.toNat → k ≠ id →
      k.value.toNat < id.value.toNat := by
    intro k hk hne
    have hvalue : k.value.toNat ≠ id.value.toNat := fun heq ↦ hne (rank_injective heq)
    omega
  refine ⟨⟨?_, ?_, ?_⟩, ⟨hid.1, fun k ↦ ?_⟩, ?_⟩
  · exact fun k x hx ↦ h.wellFormed.own k x (hold k x hx).1
  · intro k x hx
    obtain ⟨hx, hne⟩ := hold k x hx
    exact UInt64.lt_iff_toNat_lt.2
      (hlast k (UInt64.lt_iff_toNat_lt.1 (h.wellFormed.below k x hx)) hne)
  · exact fun k x hx ↦ h.wellFormed.positive k x (hold k x hx).1
  · rw [hget]
    split
    · next hk =>
      subst hk
      simp
    · next hk =>
      rw [h.dense.exists_iff]
      have hbelow := hlast k
      dsimp only
      constructor
      · rintro ⟨hpos, hlt⟩
        exact ⟨hpos, hbelow hlt hk⟩
      · rintro ⟨hpos, hlt⟩
        exact ⟨hpos, by omega⟩
  · intro k k' x x' hx hx'
    exact h.named k k' x x' (hold k x hx).1 (hold k' x' hx').1

theorem putBack_eq_ok_iff {α : Type} {part : CharacterPart α} {previous : α} :
    r.putBack part id previous = .ok r' ↔
      ∃ c, r.get? id = some c ∧ r' = r.store id (part.set c previous) := by
  unfold putBack
  rw [bind_eq_ok_iff]
  simp only [find_eq_ok_iff]
  constructor
  · rintro ⟨c, found, h⟩
    exact ⟨c, found, (Except.ok.inj h).symm⟩
  · rintro ⟨c, found, rfl⟩
    exact ⟨c, found, rfl⟩

theorem Enrolled.putBack {α : Type} (h : r.Enrolled) (part : CharacterPart α) {previous : α}
    (hsame : ∀ c x, (part.set c x).identity = c.identity)
    (hrun : r.putBack part id previous = .ok r') : r'.Enrolled := by
  obtain ⟨c, found, rfl⟩ := putBack_eq_ok_iff.1 hrun
  refine h.store found (hsame c previous) ?_
  rw [part.inventory_set]
  exact h.wellFormed.positive id c found

theorem Enrolled.restoreCredited (h : r.Enrolled)
    (hrun : r.restoreCredited id resource amount = .ok r') : r'.Enrolled := by
  obtain ⟨c, hfind, hrun⟩ := bind_eq_ok_iff.1 hrun
  obtain ⟨inventory, hremove, hrun⟩ := bind_eq_ok_iff.1 hrun
  obtain ⟨left, -, rfl⟩ := Inventory.remove_eq_ok_iff.1 hremove
  cases hrun
  have found := find_eq_ok_iff.1 hfind
  exact h.store found rfl ((h.wellFormed.positive id c found).withAmount resource left)

theorem Enrolled.restoreDebited (h : r.Enrolled)
    (hrun : r.restoreDebited id resource amount = .ok r') : r'.Enrolled := by
  obtain ⟨c, hfind, hrun⟩ := bind_eq_ok_iff.1 hrun
  obtain ⟨inventory, hadd, hrun⟩ := bind_eq_ok_iff.1 hrun
  cases hrun
  have found := find_eq_ok_iff.1 hfind
  have hpositive := h.wellFormed.positive id c found
  refine h.store found rfl ?_
  by_cases hamount : amount = 0
  · rw [Inventory.add, if_pos hamount] at hadd
    cases hadd
    exact hpositive
  · obtain ⟨total, -, rfl⟩ := (Inventory.add_eq_ok_iff hamount).1 hadd
    exact hpositive.withAmount resource total

/-! ### Any calls -/

theorem Enrolled.attempt (h : r.Enrolled) (call : Call) (hrun : r.attempt call = .ok r') :
    r'.Enrolled := by
  cases call with
  | create owner name position => exact (create_logs owner name position).enrolled h hrun
  | setWaypoints id places => exact (setWaypoints_logs id places).enrolled h hrun
  | setPosition id place => exact (setPosition_logs id place).enrolled h hrun
  | credit id resource amount => exact (credit_logs id resource amount).enrolled h hrun
  | debit id resource amount => exact (debit_logs id resource amount).enrolled h hrun
  | startMining grid deposits id region =>
    exact (startMining_logs grid deposits id region).enrolled h hrun
  | stopMining id => exact (stopMining_logs id).enrolled h hrun
  | stopRegion region => exact (stopRegion_logs region).enrolled h hrun
  | restoreCreated id => exact h.restoreCreated hrun
  | restoreMining id previous => exact h.putBack .mining (fun _ _ ↦ rfl) hrun
  | restoreWaypoints id previous => exact h.putBack .waypoints (fun _ _ ↦ rfl) hrun
  | restorePosition id previous => exact h.putBack .position (fun _ _ ↦ rfl) hrun
  | restoreCredited id resource amount => exact h.restoreCredited hrun
  | restoreDebited id resource amount => exact h.restoreDebited hrun

theorem Enrolled.after (h : r.Enrolled) (call : Call) : (r.after call).Enrolled := by
  rw [after_eq h.wellFormed]
  exact getD_of_ok h fun _ ↦ h.attempt call

theorem enrolled_afterAll (calls : List Call) : (afterAll calls).Enrolled :=
  List.foldlRecOn calls after enrolled_empty fun _ h call _ ↦ h.after call

/-- A new character gets the next number. It is refused only because its owner has one of the same
name, or because the numbers have run out. -/
theorem Enrolled.create_cases (h : r.Enrolled) (owner name : String) (position : Coord) :
    match r.create owner name position with
    | .ok out => out.answer.value.toNat = r.size + 1 ∧ r.get? out.answer = none
    | .error e => e = .duplicateName owner name ∧
        (∃ c ∈ r.toList, c.owner = owner ∧ c.name = name) ∨
      e = .idsExhausted ∧ r.size + 1 = Word.largest.toNat := by
  rw [create]
  by_cases hused : r.toList.any fun c ↦ c.owner == owner && c.name == name
  · rw [if_pos hused]
    obtain ⟨c, hc, hboth⟩ := List.any_eq_true.1 hused
    simp only [Bool.and_eq_true, beq_iff_eq] at hboth
    exact .inl ⟨rfl, c, hc, hboth⟩
  · rw [if_neg hused]
    cases hlast : r.nextId.next? with
    | none =>
      rw [← h.dense.nextId_eq, next?_eq_none_iff.1 hlast]
      exact .inr ⟨rfl, rfl⟩
    | some next => exact ⟨h.dense.nextId_eq, h.wellFormed.get?_nextId⟩

/-- After any calls, the characters are numbered from one to the last before the next number, they
are kept in order (`Enrolled`), and the next number is that of all characters plus one. So this is
what a new character gets; a creation that is taken back is that of the last character, and the next
new character gets its number, which nobody has. -/
theorem afterAll_enrolled (calls : List Call) :
    let r := afterAll calls
    r.ids.map (fun id ↦ id.value.toNat) = List.range' 1 (r.nextId.value.toNat - 1) ∧
    r.nextId.value.toNat = r.size + 1 ∧ r.Enrolled ∧
    (∀ owner name position, match r.create owner name position with
      | .ok out => out.answer.value.toNat = r.size + 1 ∧ r.get? out.answer = none
      | .error e => e = .duplicateName owner name ∧
          (∃ c ∈ r.toList, c.owner = owner ∧ c.name = name) ∨
        e = .idsExhausted ∧ r.size + 1 = Word.largest.toNat) ∧
    (∀ id r', r.restoreCreated id = .ok r' → id.value.toNat = r.size ∧ r'.get? id = none ∧
      ∀ owner name position out, r'.create owner name position = .ok out → out.answer = id) ∧
    ∀ region, ∃ out, r.stopRegion region = .ok out := by
  intro r
  have h : r.Enrolled := enrolled_afterAll calls
  refine ⟨h.dense.ids_eq, h.dense.nextId_eq, h, h.create_cases, ?_, ?_⟩
  · intro id r' hrun
    have hnext := h.dense.nextId_eq
    have h' := h.restoreCreated hrun
    obtain ⟨hlast, -, rfl⟩ := restoreCreated_eq_ok_iff.1 hrun
    have hsucc := next?_eq_some_iff.1 hlast
    refine ⟨by omega, Table.get?_erase_self r.characters id, ?_⟩
    intro owner name position out hcreate
    have hanswer := h'.create_cases owner name position
    rw [hcreate] at hanswer
    exact rank_injective (hanswer.1.trans h'.dense.nextId_eq.symm)
  · intro region
    obtain ⟨out, hout, -⟩ := stopRegion_ok h.wellFormed region
    exact ⟨out, hout⟩

end Roster

end MiningGame
