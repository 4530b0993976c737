import MiningGame.Block.Process
import MiningGame.Proofs.Contract
import MiningGame.Proofs.Edits

/-!
# Operations that fail without a trace

The operations of a block change the tables in place and push deltas on the way. Each of them does
what its answer says, worked out beside the table: it puts the answer in place and pushes all its
deltas, or fails, with the table and the record as they were (`Recording.ofAnswer`). What an edit
changed before it failed is thus never seen. Only the stopping of all miners of a region could break
off half-way, and does not where all of them are known (`Recording.stopRegion_of_ok`).
-/

namespace MiningGame

@[simp] theorem BlockUndo.append_nil (undo : BlockUndo) : undo.append [] = undo := by
  rw [append, List.append_nil]

theorem BlockUndo.append_append (undo : BlockUndo) (δs δs' : List UndoDelta) :
    (undo.append δs).append δs' = undo.append (δs ++ δs') := by
  simp only [append, List.append_assoc]

namespace Edit

variable {ε ε' σ τ α β : Type} {get : σ → τ} {set : σ → τ → σ}

/-! ## What edits are made of -/

/-- An edit of a part goes step by step. -/
theorem part_bind (hget : ∀ s t, get (set s t) = t) (hset : ∀ s t t', set (set s t) t' = set s t')
    (cause : ε' → ε) (e : Edit ε' τ α) (f : α → Edit ε' τ β) :
    part get set cause (e >>= f) = part get set cause e >>= fun a ↦ part get set cause (f a) := by
  funext s
  cases hrun : e (get s) with
  | ok a t =>
    have hfirst : part get set cause e s = .ok a (set s t) := by rw [part, hrun]
    rw [bind_of_ok hfirst, part, part, bind_of_ok hrun, hget]
    cases f a t <;> simp only [hset]
  | error x t =>
    have hfirst : part get set cause e s = .error (cause x) (set s t) := by rw [part, hrun]
    rw [bind_of_error hfirst, part, bind_of_error hrun]

/-- A failure is caught with all that was changed before it. -/
theorem tryCatch_of_error {e : Edit ε σ α} {f : ε → Edit ε σ α} {s s' : σ} {x : ε}
    (h : e s = .error x s') : tryCatch e f s = f x s' := by
  change EStateM.tryCatch e f s = f x s'
  unfold EStateM.tryCatch
  rw [h]
  rfl

theorem tryCatch_of_ok {e : Edit ε σ α} {f : ε → Edit ε σ α} {s s' : σ} {a : α}
    (h : e s = .ok a s') : tryCatch e f s = .ok a s' := by
  change EStateM.tryCatch e f s = .ok a s'
  unfold EStateM.tryCatch
  rw [h]

theorem ending_ofAnswer (f : σ → Except ε σ) (s : σ) :
    ending (Edit.ofAnswer f s) = (f s).toOption.getD s := by
  rw [Edit.ofAnswer]
  cases f s <;> rfl

theorem succeeds_of_ok {e : Edit ε' σ Unit} {s s' : σ} (h : e s = .ok () s') :
    (succeeds e : Edit ε σ Bool) s = .ok true s' := by
  rw [succeeds, h]

theorem succeeds_of_error {e : Edit ε' σ Unit} {s s' : σ} {x : ε'} (h : e s = .error x s') :
    (succeeds e : Edit ε σ Bool) s = .ok false s' := by
  rw [succeeds, h]

end Edit

namespace Recording

variable {ε σ α β : Type}

/-! ## Recordings from answers -/

/-- The recording that puts an answer in place and pushes its deltas, or fails and leaves everything
as it was. -/
def ofAnswer (f : σ → Except ε (Recorded σ α)) : Recording ε σ α := fun (s, undo) ↦
  match f s with
  | .ok out => .ok out.answer (out.state, undo.append out.deltas)
  | .error x => .error x (s, undo)

theorem ofAnswer_of_ok {f : σ → Except ε (Recorded σ α)} {s : σ} {out : Recorded σ α}
    (h : f s = .ok out) (undo : BlockUndo) :
    ofAnswer f (s, undo) = .ok out.answer (out.state, undo.append out.deltas) := by
  rw [ofAnswer, h]

theorem ofAnswer_of_error {f : σ → Except ε (Recorded σ α)} {s : σ} {x : ε} (h : f s = .error x)
    (undo : BlockUndo) : ofAnswer f (s, undo) = .error x (s, undo) := by
  rw [ofAnswer, h]

/-- What is seen before anything is done. -/
theorem get_bind (f : σ → Recording ε σ α) (s : σ) (undo : BlockUndo) :
    (edit get >>= f) (s, undo) = f s (s, undo) := rfl

theorem edit_of_ok {e : Edit ε σ α} {s s' : σ} {a : α} (h : e s = .ok a s') (undo : BlockUndo) :
    edit e (s, undo) = .ok a (s', undo) := by
  rw [edit, Edit.part, h]

theorem edit_of_error {e : Edit ε σ α} {s s' : σ} {x : ε} (h : e s = .error x s')
    (undo : BlockUndo) : edit e (s, undo) = .error x (s', undo) := by
  rw [edit, Edit.part, h]

/-- Where nothing is done, nothing is pushed. -/
theorem pure_eq (s : σ) (undo : BlockUndo) (a : α) :
    (pure a : Recording ε σ α) (s, undo) = .ok a (s, undo.append []) := by
  rw [BlockUndo.append_nil]
  rfl

theorem alone_of_ok {e : Recording ε σ α} {s s' : σ} {a : α} {undo : BlockUndo}
    (h : e (s, .new 0) = .ok a (s', undo)) : e.alone s = .ok () s' := by
  rw [alone, h]

theorem alone_ofAnswer (f : σ → Except ε (Recorded σ α)) :
    alone (ofAnswer f) = Edit.ofAnswer fun s ↦ (f s).map Recorded.state := by
  funext s
  rw [alone, ofAnswer, Edit.ofAnswer]
  cases f s <;> rfl

/-- A delta that is pushed after an edit without a trace is pushed exactly if that succeeds. -/
theorem edit_push (f : σ → Except ε σ) (δ : UndoDelta) :
    (do edit (Edit.ofAnswer f); push δ : Recording ε σ Unit) =
      ofAnswer fun s ↦ (f s).map fun s' ↦ ⟨s', (), [δ]⟩ := by
  funext ⟨s, undo⟩
  rw [ofAnswer]
  cases hf : f s with
  | ok s' => exact bind_of_ok (edit_of_ok (Edit.ofAnswer_of_ok hf) undo)
  | error x => exact bind_of_error (edit_of_error (Edit.ofAnswer_of_error hf) undo)

/-! ## The roster -/

theorem create_eq (owner name : String) (position : Coord) :
    create owner name position = ofAnswer fun r ↦ r.create owner name position := by
  funext ⟨r, undo⟩
  rw [create, get_bind, ofAnswer, Roster.create]
  by_cases hused : r.toList.any fun c ↦ c.owner == owner && c.name == name
  · rw [if_pos hused, if_pos hused]
    rfl
  · rw [if_neg hused, if_neg hused]
    cases r.nextId.next? <;> rfl

theorem find_of_get? {r : Roster} {id : CharacterId} {c : Character} (found : r.get? id = some c)
    (undo : BlockUndo) : find id (r, undo) = .ok c (r, undo) := by
  rw [find, get_bind, found]
  rfl

theorem find_of_absent {r : Roster} {id : CharacterId} (absent : r.get? id = none)
    (undo : BlockUndo) : find id (r, undo) = .error (.characterNotFound id) (r, undo) := by
  rw [find, get_bind, absent]
  rfl

theorem edit_set_of_get? {r : Roster} {id : CharacterId} {c : Character}
    (part : CharacterPart α) (found : r.get? id = some c) (value : α) (undo : BlockUndo) :
    edit (Roster.edit id (modify fun c ↦ part.set c value)) (r, undo) =
      .ok () (r.store id (part.set c value), undo) := by
  have hput : r.putBack part id value = .ok (r.store id (part.set c value)) := by
    rw [Roster.putBack, Roster.find_eq_ok_iff.2 found]
    rfl
  have hedit : Roster.edit id (modify fun c ↦ part.set c value) =
      Edit.ofAnswer fun r ↦ r.putBack part id value := Roster.setBack_eq part id value
  rw [hedit]
  exact edit_of_ok (Edit.ofAnswer_of_ok hput) undo

theorem replace_eq [DecidableEq α] (part : CharacterPart α) (id : CharacterId) (value : α) :
    replace part id value = ofAnswer fun r ↦ r.replace part id value := by
  funext ⟨r, undo⟩
  rw [ofAnswer, Roster.replace, Roster.find, replace]
  cases found : r.get? id with
  | none => exact bind_of_error (find_of_absent found undo)
  | some c =>
    rw [bind_of_ok (find_of_get? found undo), ok_bind]
    by_cases hsame : part.get c = value
    · rw [if_pos hsame, if_pos hsame]
      exact pure_eq r undo ()
    · rw [if_neg hsame, if_neg hsame]
      exact edit_set_of_get? part found value _

theorem setMining_eq (id : CharacterId) (status : MiningStatus) :
    setMining id status = ofAnswer fun r ↦ r.setMining id status := replace_eq .mining id status

theorem setWaypoints_eq (id : CharacterId) (waypoints : List Coord) :
    setWaypoints id waypoints = ofAnswer fun r ↦ r.setWaypoints id waypoints := by
  funext ⟨r, undo⟩
  rw [ofAnswer, Roster.setWaypoints, Roster.replace, Roster.find, setWaypoints]
  cases found : r.get? id with
  | none => exact bind_of_error (find_of_absent found undo)
  | some c =>
    rw [bind_of_ok (find_of_get? found undo), ok_bind]
    have hget : CharacterPart.waypoints.get c = c.waypoints := rfl
    rw [hget]
    by_cases hsame : c.waypoints = waypoints
    · rw [if_pos hsame, if_pos hsame]
      exact pure_eq r undo ()
    · rw [if_neg hsame, if_neg hsame]
      exact bind_of_ok (edit_set_of_get? .waypoints found waypoints undo)

theorem setPosition_eq (id : CharacterId) (position : Coord) :
    setPosition id position = ofAnswer fun r ↦ r.setPosition id position :=
  replace_eq .position id position

theorem credit_eq (id : CharacterId) (resource : Resource) (amount : UInt64) :
    credit id resource amount = ofAnswer fun r ↦ r.credit id resource amount := by
  by_cases hzero : amount = 0
  · funext ⟨r, undo⟩
    rw [credit, if_pos hzero, ofAnswer, Roster.credit, if_pos hzero]
    exact pure_eq r undo ()
  · rw [credit, if_neg hzero, Inventory.raise_eq, Roster.editInventory_ofAnswer]
    refine (edit_push _ _).trans (congrArg ofAnswer (funext fun r ↦ ?_))
    rw [Roster.credit, if_neg hzero]
    cases r.find id with
    | error x => rfl
    | ok c =>
      cases hadd : Inventory.add c.inventory resource amount <;> simp only [ok_bind, hadd] <;> rfl

theorem debit_eq (id : CharacterId) (resource : Resource) (amount : UInt64) :
    debit id resource amount = ofAnswer fun r ↦ r.debit id resource amount := by
  by_cases hzero : amount = 0
  · funext ⟨r, undo⟩
    rw [debit, if_pos hzero, ofAnswer, Roster.debit, if_pos hzero]
    exact pure_eq r undo ()
  · rw [debit, if_neg hzero, Inventory.lower_eq, Roster.editInventory_ofAnswer]
    refine (edit_push _ _).trans (congrArg ofAnswer (funext fun r ↦ ?_))
    rw [Roster.debit, if_neg hzero]
    cases r.find id with
    | error x => rfl
    | ok c =>
      cases hremove : Inventory.remove c.inventory resource amount <;>
        simp only [ok_bind, hremove] <;> rfl

theorem startMining_eq (grid : Grid) (deposits : Deposits) (id : CharacterId) (region : RegionId) :
    startMining grid deposits id region =
      ofAnswer fun r ↦ r.startMining grid deposits id region := by
  funext ⟨r, undo⟩
  rw [ofAnswer, Roster.startMining, Roster.find, startMining]
  cases found : r.get? id with
  | none => exact bind_of_error (find_of_absent found undo)
  | some c =>
    rw [bind_of_ok (find_of_get? found undo), ok_bind]
    cases Roster.rejection? grid deposits c region with
    | some reason => rfl
    | none => exact congrFun (setMining_eq id (.mining region)) (r, undo)

theorem stopMining_eq (id : CharacterId) :
    stopMining id = ofAnswer fun r ↦ r.stopMining id := setMining_eq id .idle

/-- Stopping characters one by one does what it answers, as long as all of them are there. -/
theorem stopAll_of_ok {ids : List CharacterId} {r : Roster} {out : Recorded Roster Unit}
    (h : r.stopAll ids = .ok out) (undo : BlockUndo) :
    ids.forM stopMining (r, undo) = .ok () (out.state, undo.append out.deltas) := by
  induction ids generalizing r out undo with
  | nil =>
    cases h
    exact pure_eq r undo ()
  | cons id rest ih =>
    obtain ⟨one, hone, h⟩ := bind_eq_ok_iff.1 h
    obtain ⟨others, hothers, h⟩ := bind_eq_ok_iff.1 h
    cases h
    have hfirst : stopMining id (r, undo) = .ok () (one.state, undo.append one.deltas) := by
      rw [stopMining_eq]
      exact ofAnswer_of_ok hone undo
    refine (bind_of_ok hfirst).trans ((ih hothers _).trans ?_)
    rw [BlockUndo.append_append]

theorem stopRegion_of_ok {region : RegionId} {r : Roster} {out : Recorded Roster (List CharacterId)}
    (h : r.stopRegion region = .ok out) (undo : BlockUndo) :
    stopRegion region (r, undo) = .ok out.answer (out.state, undo.append out.deltas) := by
  obtain ⟨stopped, hstopped, h⟩ := bind_eq_ok_iff.1 h
  cases h
  rw [stopRegion, get_bind]
  exact bind_of_ok (stopAll_of_ok hstopped undo)

/-! ## Deposits -/

theorem assign_eq (region : RegionId) (resource : Resource) (amount : UInt64)
    (prospection : Prospection) : assign region resource amount prospection =
      ofAnswer fun d ↦ d.assign region resource amount prospection := by
  funext ⟨d, undo⟩
  rw [assign, get_bind, ofAnswer, Deposits.assign]
  cases d.resource? region with
  | some present => rfl
  | none =>
    by_cases hzero : amount = 0
    · simp only [if_pos hzero]
      rfl
    · simp only [if_neg hzero]
      cases Word.add? (d.prospected.amount resource) amount <;> rfl

theorem extract_eq (region : RegionId) (amount : UInt64) :
    extract region amount = ofAnswer fun d ↦ .ok (d.extract region amount) := by
  funext ⟨d, undo⟩
  rw [extract, get_bind, ofAnswer, Deposits.extract]
  cases d.record? region with
  | none => exact pure_eq d undo none
  | some record =>
    cases hresource : record.resource with
    | none =>
      simp only [hresource]
      exact pure_eq d undo none
    | some resource =>
      simp only [hresource]
      by_cases hzero : min amount record.remaining = 0
      · simp only [if_pos hzero]
        exact pure_eq d undo _
      · simp only [if_neg hzero]
        rfl

/-! ## Ground loot -/

theorem dropAt_eq (position : Coord) (resource : Resource) (amount : UInt64) :
    dropAt position resource amount = ofAnswer fun l ↦ l.dropAt position resource amount := by
  by_cases hzero : amount = 0
  · funext ⟨l, undo⟩
    rw [dropAt, if_pos hzero, ofAnswer, GroundLoot.dropAt, if_pos hzero]
    exact pure_eq l undo ()
  · rw [dropAt, if_neg hzero, GroundLoot.raise_eq]
    refine (edit_push _ _).trans (congrArg ofAnswer (funext fun l ↦ ?_))
    rw [GroundLoot.dropAt, if_neg hzero]
    cases l.add position resource amount <;> rfl

theorem pickUp_eq (position : Coord) (resource : Resource) (requested : UInt64) :
    pickUp position resource requested =
      ofAnswer fun l ↦ .ok (l.pickUp position resource requested) := by
  funext ⟨l, undo⟩
  rw [pickUp, get_bind, ofAnswer, GroundLoot.pickUp]
  by_cases hzero : min requested (l.amountAt position resource) = 0
  · simp only [if_pos hzero]
    exact pure_eq l undo 0
  · simp only [if_neg hzero, GroundLoot.lower_eq]
    cases hremove : l.remove position resource (min requested (l.amountAt position resource)) with
    | ok l' =>
      exact bind_of_ok (edit_of_ok (Edit.succeeds_of_ok (Edit.ofAnswer_of_ok hremove)) undo)
    | error x =>
      refine (bind_of_ok (edit_of_ok (Edit.succeeds_of_error (Edit.ofAnswer_of_error hremove))
        undo)).trans ?_
      exact pure_eq l undo 0

end Recording

/-! ## What is passed over -/

/-- The answer of `Recording.createIfNew`. -/
def Roster.createIfNew (r : Roster) (c : CreateCharacter) :
    Except CharacterError (Recorded Roster Unit) :=
  match r.create c.owner c.name c.position with
  | .ok out => .ok ⟨out.state, (), out.deltas⟩
  | .error (.duplicateName ..) => .ok ⟨r, (), []⟩
  | .error x => .error x

/-- The answer of `Recording.startIfAllowed`. -/
def Roster.startIfAllowed (r : Roster) (grid : Grid) (deposits : Deposits) (id : CharacterId)
    (region : RegionId) : Except CharacterError (Recorded Roster Unit) :=
  match r.startMining grid deposits id region with
  | .error (.invalidMiningTarget ..) => .ok ⟨r, (), []⟩
  | outcome => outcome

/-- The answer of `Recording.assignIfVacant`. -/
def Deposits.assignIfVacant (d : Deposits) (region : RegionId) (find : Find)
    (prospection : Prospection) : Except WorldError (Recorded Deposits Unit) :=
  match d.assign region find.resource find.amount prospection with
  | .error (.alreadyAssigned ..) => .ok ⟨d, (), []⟩
  | .error (.emptyDeposit ..) => .ok ⟨d, (), []⟩
  | outcome => outcome

namespace Recording

theorem createIfNew_eq (c : CreateCharacter) :
    createIfNew c = ofAnswer fun r ↦ r.createIfNew c := by
  funext ⟨r, undo⟩
  rw [ofAnswer, Roster.createIfNew, createIfNew, create_eq]
  cases hrun : r.create c.owner c.name c.position with
  | ok out => exact Edit.tryCatch_of_ok (bind_of_ok (ofAnswer_of_ok hrun undo))
  | error x =>
    refine (Edit.tryCatch_of_error (bind_of_error (ofAnswer_of_error hrun undo))).trans ?_
    cases x with
    | duplicateName => exact pure_eq r undo ()
    | _ => rfl

theorem startIfAllowed_eq (grid : Grid) (deposits : Deposits) (id : CharacterId)
    (region : RegionId) : startIfAllowed grid deposits id region =
      ofAnswer fun r ↦ r.startIfAllowed grid deposits id region := by
  funext ⟨r, undo⟩
  rw [ofAnswer, Roster.startIfAllowed, startIfAllowed, startMining_eq]
  cases hrun : r.startMining grid deposits id region with
  | ok out => exact Edit.tryCatch_of_ok (ofAnswer_of_ok hrun undo)
  | error x =>
    refine (Edit.tryCatch_of_error (ofAnswer_of_error hrun undo)).trans ?_
    cases x with
    | invalidMiningTarget => exact pure_eq r undo ()
    | _ => rfl

theorem assignIfVacant_eq (region : RegionId) (find : Find) (prospection : Prospection) :
    assignIfVacant region find prospection =
      ofAnswer fun d ↦ d.assignIfVacant region find prospection := by
  funext ⟨d, undo⟩
  rw [ofAnswer, Deposits.assignIfVacant, assignIfVacant, assign_eq]
  cases hrun : d.assign region find.resource find.amount prospection with
  | ok out => exact Edit.tryCatch_of_ok (ofAnswer_of_ok hrun undo)
  | error x =>
    refine (Edit.tryCatch_of_error (ofAnswer_of_error hrun undo)).trans ?_
    cases x with
    | alreadyAssigned => exact pure_eq d undo ()
    | emptyDeposit => exact pure_eq d undo ()
    | _ => rfl

end Recording

/-! ## Turns -/

namespace Turn

variable {α β : Type}

/-- On any of the tables, a failure that leaves no trace in the table leaves none in the state. -/
theorem inTable_ofAnswer {ε τ : Type} {get : GameState → τ} {set : GameState → τ → GameState}
    {cause : ε → BlockError} (hset : ∀ s, set s (get s) = s) (f : τ → Except ε (Recorded τ α))
    (p : Progress) : inTable get set cause (.ofAnswer f) p = match f (get p.state) with
      | .error x => .error (cause x) p
      | .ok out => .ok out.answer ⟨set p.state out.state, p.undo.append out.deltas⟩ := by
  rw [inTable, Edit.part, Recording.ofAnswer]
  cases f (get p.state) with
  | ok out => rfl
  | error x => simp only [hset]

theorem inRoster_eq {e : Recording CharacterError Roster α}
    {f : Roster → Except CharacterError (Recorded Roster α)} (he : e = .ofAnswer f) :
    inRoster e = onRoster f := by
  funext p
  rw [he, inRoster, inTable_ofAnswer fun _ ↦ rfl, onRoster]
  cases f p.state.roster <;> rfl

theorem inDeposits_eq {e : Recording WorldError Deposits α}
    {f : Deposits → Except WorldError (Recorded Deposits α)} (he : e = .ofAnswer f) :
    inDeposits e = onDeposits? f := by
  funext p
  rw [he, inDeposits, inTable_ofAnswer fun _ ↦ rfl, onDeposits?]
  cases f p.state.deposits <;> rfl

theorem inLoot_eq {e : Recording WorldError GroundLoot α}
    {f : GroundLoot → Except WorldError (Recorded GroundLoot α)} (he : e = .ofAnswer f) :
    inLoot e = onLoot? f := by
  funext p
  rw [he, inLoot, inTable_ofAnswer fun _ ↦ rfl, onLoot?]
  cases f p.state.loot <;> rfl

/-- Extracting has an answer for every region. -/
theorem inDeposits_extract (region : RegionId) (amount : UInt64) :
    inDeposits (.extract region amount) = onDeposits fun d ↦ d.extract region amount :=
  inDeposits_eq (Recording.extract_eq region amount)

theorem inLoot_pickUp (position : Coord) (resource : Resource) (requested : UInt64) :
    inLoot (.pickUp position resource requested) =
      onLoot fun l ↦ l.pickUp position resource requested :=
  inLoot_eq (Recording.pickUp_eq position resource requested)

theorem inRoster_ok {e : Recording CharacterError Roster α}
    {f : Roster → Except CharacterError (Recorded Roster α)} (he : e = .ofAnswer f)
    {p p' : Progress} {a : α} (h : inRoster e p = .ok a p') :
    ∃ out, f p.state.roster = .ok out ∧ out.answer = a ∧
      p' = ⟨{ p.state with roster := out.state }, p.undo.append out.deltas⟩ := by
  rw [inRoster_eq he, onRoster] at h
  cases hout : f p.state.roster with
  | error x =>
    rw [hout] at h
    cases h
  | ok out =>
    rw [hout] at h
    cases h
    exact ⟨out, rfl, rfl, rfl⟩

theorem inRoster_of_ok {e : Recording CharacterError Roster α} {p : Progress} {a : α} {r : Roster}
    {undo : BlockUndo} (h : e (p.state.roster, p.undo) = .ok a (r, undo)) :
    inRoster e p = .ok a ⟨{ p.state with roster := r }, undo⟩ := by
  rw [inRoster, inTable, Edit.part, h]

theorem inRoster_pure (a : α) : inRoster (pure a) = pure a := by
  funext p
  rfl

theorem inRoster_bind (e : Recording CharacterError Roster α)
    (f : α → Recording CharacterError Roster β) :
    inRoster (e >>= f) = inRoster e >>= fun a ↦ inRoster (f a) := by
  apply Edit.part_bind
  · exact fun _ _ ↦ rfl
  · exact fun _ _ _ ↦ rfl

theorem inRoster_forM (f : β → Recording CharacterError Roster Unit) (l : List β) :
    inRoster (l.forM f) = l.forM fun b ↦ inRoster (f b) := by
  induction l with
  | nil => exact inRoster_pure ()
  | cons b l ih =>
    refine (inRoster_bind (f b) fun _ ↦ l.forM f).trans ?_
    rw [ih]
    rfl

/-- The miners of a region are stopped one by one. -/
theorem inRoster_stopRegion (region : RegionId) : inRoster (.stopRegion region) = (do
    let miners := (← state).roster.minersOf region
    miners.forM fun id ↦ inRoster (.stopMining id)
    return miners : Turn (List CharacterId)) := by
  rw [Recording.stopRegion, inRoster_bind]
  funext p
  refine (bind_of_ok (t := inRoster (.edit get)) rfl).trans ?_
  rw [inRoster_bind, inRoster_forM]
  rfl

end Turn

end MiningGame
