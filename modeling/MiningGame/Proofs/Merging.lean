import Mathlib.Data.List.Induction
import Mathlib.Logic.Relation
import MiningGame.Proofs.Canonical
import MiningGame.Proofs.Opening

/-!
# What of its moves a block sees

A merged move holds the last directive of each kind that any move of its character gives
(`CharacterMove.of_get?_merge`), and a block sees its moves only as what they merge to for the
characters that exist (`Turn.block_congr`). So it does not see how moves of different characters are
interleaved, moves without directives, moves of characters that do not exist, or whether the moves
of a character came one by one or merged into one (`CharacterMove.Rewrite`).
-/

namespace MiningGame

namespace CharacterMove

/-- The directives of all moves of a character, in the order of the moves. -/
def directivesOf (moves : List (CharacterId × CharacterMove)) (id : CharacterId) :
    List Directive :=
  (moves.filter fun e ↦ e.1 = id).flatMap fun e ↦ e.2.directives

/-- A directive that a list holds with no other one of its kind after it. -/
def LastOfKind (ds : List Directive) (d : Directive) : Prop :=
  ∃ before after, ds = before ++ d :: after ∧ ∀ e ∈ after, e.rank ≠ d.rank

variable {m m' : CharacterMove} {d d' : Directive} {ds : List Directive}
  {moves : List (CharacterId × CharacterMove)} {id : CharacterId}

/-! ## The last directive of each kind -/

theorem not_lastOfKind_nil : ¬ LastOfKind [] d := by
  rintro ⟨before, after, h, -⟩
  exact List.append_ne_nil_of_right_ne_nil before (List.cons_ne_nil d after) h.symm

theorem lastOfKind_concat :
    LastOfKind (ds ++ [d']) d ↔ d = d' ∨ LastOfKind ds d ∧ d.rank ≠ d'.rank := by
  constructor
  · rintro ⟨before, after, h, hafter⟩
    rcases List.eq_nil_or_concat after with rfl | ⟨after, e, rfl⟩
    · obtain ⟨-, h⟩ := List.append_inj' h rfl
      exact .inl (List.singleton_inj.1 h).symm
    · rw [List.concat_eq_append, ← List.cons_append, ← List.append_assoc] at h
      obtain ⟨rfl, hlast⟩ := List.append_inj' h rfl
      obtain rfl := List.singleton_inj.1 hlast
      refine .inr ⟨⟨before, after, rfl, fun e he ↦ hafter e (by simp [he])⟩, ?_⟩
      exact (hafter d' (by simp)).symm
  · rintro (rfl | ⟨⟨before, after, rfl, hafter⟩, hne⟩)
    · exact ⟨ds, [], rfl, nofun⟩
    · refine ⟨before, after ++ [d'], by simp, fun e he ↦ ?_⟩
      rcases List.mem_append.1 he with he | he
      · exact hafter e he
      · rw [List.mem_singleton.1 he]
        exact hne.symm

/-- Where no two directives are of one kind, each is the last of its kind. -/
theorem lastOfKind_iff_mem (h : ds.Pairwise fun d e ↦ d.rank ≠ e.rank) :
    LastOfKind ds d ↔ d ∈ ds := by
  constructor
  · rintro ⟨before, after, rfl, -⟩
    simp
  · intro hd
    obtain ⟨before, after, rfl⟩ := List.append_of_mem hd
    obtain ⟨-, hcons, -⟩ := List.pairwise_append.1 h
    exact ⟨before, after, rfl, fun e he ↦ ((List.pairwise_cons.1 hcons).1 e he).symm⟩

/-- A canonical move is determined by the directives it holds. -/
theorem Canonical.ext (h : m.Canonical) (h' : m'.Canonical)
    (hmem : ∀ d, d ∈ m.directives ↔ d ∈ m'.directives) : m = m' := by
  have hnodup : ∀ {ds : List Directive}, Ordered ds → ds.Nodup := fun hds ↦
    hds.imp fun hlt ↦ ne_of_apply_ne Directive.rank (Nat.ne_of_lt hlt)
  have hperm := (List.perm_ext_iff_of_nodup (hnodup h) (hnodup h')).2 hmem
  have hds : m.directives = m'.directives :=
    hperm.eq_of_pairwise (fun d e _ _ hlt hgt ↦ absurd hlt (Nat.lt_asymm hgt)) h h'
  cases m
  cases m'
  cases hds
  rfl

theorem mem_push : d ∈ (m.push d').directives ↔ d = d' ∨ d ∈ m.directives ∧ d.rank ≠ d'.rank := by
  simp only [push, mem_place, mem_removeKind]

theorem pushAll_append (m : CharacterMove) (ds ds' : List Directive) :
    m.pushAll (ds ++ ds') = (m.pushAll ds).pushAll ds' :=
  List.foldl_append

theorem mem_pushAll_empty : d ∈ (empty.pushAll ds).directives ↔ LastOfKind ds d := by
  induction ds using List.reverseRecOn with
  | nil => exact ⟨nofun, fun h ↦ absurd h not_lastOfKind_nil⟩
  | append_singleton ds d' ih =>
    have hpush : empty.pushAll (ds ++ [d']) = (empty.pushAll ds).push d' :=
      pushAll_append empty ds [d']
    rw [hpush, mem_push, ih, lastOfKind_concat]

/-- Pushing the directives of a canonical move one by one builds the move again. -/
theorem Canonical.pushAll_directives (h : m.Canonical) : empty.pushAll m.directives = m :=
  (canonical_empty.pushAll m.directives).ext h fun _ ↦ by
    rw [mem_pushAll_empty, lastOfKind_iff_mem (h.imp Nat.ne_of_lt)]

/-! ## Merged moves -/

theorem directivesOf_concat (e : CharacterId × CharacterMove) : directivesOf (moves ++ [e]) id =
    if id = e.1 then directivesOf moves id ++ e.2.directives else directivesOf moves id := by
  unfold directivesOf
  rw [List.filter_append, List.flatMap_append]
  by_cases h : id = e.1
  · simp [h]
  · simp [h, Ne.symm h]

theorem get?_merge_concat (e : CharacterId × CharacterMove) : (merge (moves ++ [e])).get? id =
    if id = e.1 then some ((((merge moves).get? e.1).getD empty).pushAll e.2.directives)
    else (merge moves).get? id := by
  unfold merge
  rw [List.foldl_append]
  exact (Table.get?_insert ..).trans (by simp only [rank_inj])

/-- A merged move comes from pushing all directives of a character in turn. -/
theorem getD_merge_eq (moves : List (CharacterId × CharacterMove)) (id : CharacterId) :
    ((merge moves).get? id).getD empty = empty.pushAll (directivesOf moves id) := by
  induction moves using List.reverseRecOn with
  | nil => rfl
  | append_singleton moves e ih =>
    rw [get?_merge_concat, directivesOf_concat]
    split
    · next h =>
      rw [pushAll_append, ← ih, h]
      rfl
    · exact ih

theorem get?_merge_eq_none_iff : (merge moves).get? id = none ↔ ∀ m, (id, m) ∉ moves := by
  induction moves using List.reverseRecOn with
  | nil => simp [merge]
  | append_singleton moves e ih =>
    rw [get?_merge_concat]
    split
    · next h =>
      refine ⟨nofun, fun hno ↦ absurd ?_ (hno e.2)⟩
      rw [h]
      exact List.mem_append_right _ List.mem_cons_self
    · next h =>
      have hne : ∀ m, (id, m) ≠ e := fun m heq ↦ h (heq ▸ rfl)
      simp [ih, hne]

/-- A merged move holds the last directive of each kind, in the order of execution. -/
theorem of_get?_merge (h : (merge moves).get? id = some m) : m.Canonical ∧
    ∀ d, d ∈ m.directives ↔ LastOfKind (directivesOf moves id) d := by
  have hm : m = empty.pushAll (directivesOf moves id) := by
    rw [← getD_merge_eq, h]
    rfl
  refine ⟨merge_canonical h, fun d ↦ ?_⟩
  rw [hm, mem_pushAll_empty]

example : (merge [(.first, ⟨[.prospect, .waypoints [⟨0, 0⟩]]⟩), (⟨2⟩, ⟨[.mine]⟩),
    (.first, ⟨[.waypoints []]⟩)]).get? .first = some ⟨[.waypoints [], .prospect]⟩ := by decide

/-! ## Lists of moves that come to the same -/

/-- Ways to write down the same moves when only characters that pass a test exist: the moves of
each character stay as they are and in their order, or all moves with directives do, or all moves
of characters that exist, or the moves of one character are merged into a single one. -/
inductive Rewrite (who : CharacterId → Bool) (moves moves' : List (CharacterId × CharacterMove)) :
    Prop
  | interleave (same : ∀ id, moves'.filter (fun e ↦ e.1 = id) = moves.filter fun e ↦ e.1 = id)
  | nonempty (same : (moves'.filter fun e ↦ !e.2.isEmpty) = moves.filter fun e ↦ !e.2.isEmpty)
  | known (same : (moves'.filter fun e ↦ who e.1) = moves.filter fun e ↦ who e.1)
  | single (id : CharacterId) (m : CharacterMove) (merged : (merge moves).get? id = some m)
      (single : moves'.filter (fun e ↦ e.1 = id) = [(id, m)])
      (others : ∀ id' ≠ id,
        moves'.filter (fun e ↦ e.1 = id') = moves.filter fun e ↦ e.1 = id')

/-- Moves without directives add none. -/
theorem directivesOf_nonempty (moves : List (CharacterId × CharacterMove)) (id : CharacterId) :
    directivesOf (moves.filter fun e ↦ !e.2.isEmpty) id = directivesOf moves id := by
  have hflat : ∀ l : List (CharacterId × CharacterMove),
      (l.filter fun e ↦ !e.2.isEmpty).flatMap (fun e ↦ e.2.directives) =
        l.flatMap fun e ↦ e.2.directives := by
    intro l
    induction l with
    | nil => rfl
    | cons e rest ih =>
      cases hempty : e.2.isEmpty with
      | false => simp [hempty, ih]
      | true =>
        have hnil : e.2.directives = [] := List.isEmpty_iff.1 hempty
        simp [hempty, hnil, ih]
  unfold directivesOf
  rw [← hflat (moves.filter _), List.filter_filter, List.filter_filter]
  simp only [Bool.and_comm]

theorem directivesOf_known {who : CharacterId → Bool} (hwho : who id = true)
    (moves : List (CharacterId × CharacterMove)) :
    directivesOf (moves.filter fun e ↦ who e.1) id = directivesOf moves id := by
  unfold directivesOf
  rw [List.filter_filter]
  congr 1
  refine List.filter_congr fun e _ ↦ ?_
  by_cases hid : e.1 = id
  · simp [hid, hwho]
  · simp [hid]

theorem directivesOf_congr {moves' : List (CharacterId × CharacterMove)}
    (h : moves'.filter (fun e ↦ e.1 = id) = moves.filter fun e ↦ e.1 = id) :
    directivesOf moves' id = directivesOf moves id := by
  unfold directivesOf
  rw [h]

/-- Rewritten moves merge to the same for every character that exists. -/
theorem Rewrite.getD_merge {who : CharacterId → Bool}
    {moves' : List (CharacterId × CharacterMove)} (h : Rewrite who moves moves')
    (hwho : who id = true) :
    ((merge moves').get? id).getD empty = ((merge moves).get? id).getD empty := by
  have hsame : directivesOf moves' id = directivesOf moves id →
      ((merge moves').get? id).getD empty = ((merge moves).get? id).getD empty := by
    intro heq
    rw [getD_merge_eq, getD_merge_eq, heq]
  cases h with
  | interleave same => exact hsame (directivesOf_congr (same id))
  | nonempty same =>
    apply hsame
    rw [← directivesOf_nonempty moves', same, directivesOf_nonempty]
  | known same =>
    apply hsame
    rw [← directivesOf_known hwho moves', same, directivesOf_known hwho]
  | single id' m merged single others =>
    by_cases hid : id = id'
    · subst hid
      have hm : directivesOf moves' id = m.directives := by
        unfold directivesOf
        rw [single]
        exact List.append_nil _
      rw [getD_merge_eq, hm, merged]
      exact (merge_canonical merged).pushAll_directives
    · exact hsame (directivesOf_congr (others id hid))

end CharacterMove

/-! ## Nobody comes or goes while moves are carried out -/

/-- The characters that exist are the ones that pass a test. -/
def Populated (who : CharacterId → Bool) (p : Progress) : Prop :=
  p.state.roster.characters.contains = who

/-- An operation on the roster under which nobody comes or goes. -/
def Roster.KeepsAll {α : Type} (f : Roster → Except CharacterError (Recorded Roster α)) : Prop :=
  ∀ r out, f r = .ok out → out.state.characters.contains = r.characters.contains

namespace Roster

variable {r : Roster} {id : CharacterId} {c c' : Character}

theorem contains_store (hfind : r.find id = .ok c) :
    (r.store id c').characters.contains = r.characters.contains := by
  have found : r.characters.get? id = some c := find_eq_ok_iff.1 hfind
  funext id'
  by_cases h : id' = id
  · simp [Table.contains, store, h, found]
  · simp [Table.contains, store, Table.get?_insert_of_ne _ _ h]

theorem replace_keepsAll {α : Type} [DecidableEq α] (part : CharacterPart α) (id : CharacterId)
    (value : α) : KeepsAll fun r ↦ r.replace part id value := by
  intro r out h
  obtain ⟨c, hfind, h⟩ := bind_eq_ok_iff.1 h
  split at h
  · cases h
    rfl
  · cases h
    exact contains_store hfind

theorem credit_keepsAll (id : CharacterId) (resource : Resource) (amount : UInt64) :
    KeepsAll fun r ↦ r.credit id resource amount := by
  intro r out h
  simp only [credit] at h
  split at h
  · cases h
    rfl
  · obtain ⟨c, hfind, h⟩ := bind_eq_ok_iff.1 h
    obtain ⟨inventory, -, h⟩ := bind_eq_ok_iff.1 h
    cases h
    exact contains_store hfind

theorem debit_keepsAll (id : CharacterId) (resource : Resource) (amount : UInt64) :
    KeepsAll fun r ↦ r.debit id resource amount := by
  intro r out h
  simp only [debit] at h
  split at h
  · cases h
    rfl
  · obtain ⟨c, hfind, h⟩ := bind_eq_ok_iff.1 h
    obtain ⟨inventory, -, h⟩ := bind_eq_ok_iff.1 h
    cases h
    exact contains_store hfind

theorem startIfAllowed_keepsAll (grid : Grid) (deposits : Deposits) (id : CharacterId)
    (region : RegionId) : KeepsAll fun r ↦ r.startIfAllowed grid deposits id region := by
  intro r out h
  simp only [startIfAllowed] at h
  split at h
  · cases h
    rfl
  · obtain ⟨c, -, h⟩ := bind_eq_ok_iff.1 h
    split at h
    · cases h
    · exact replace_keepsAll .mining id _ r out h

end Roster

namespace Turn

variable {who : CharacterId → Bool} {α : Type}

theorem inRoster_populated {e : Recording CharacterError Roster α}
    {f : Roster → Except CharacterError (Recorded Roster α)} (he : e = .ofAnswer f)
    (h : Roster.KeepsAll f) : Keeps (Populated who) (inRoster e) := by
  intro p hp
  rw [inRoster_eq he, onRoster]
  cases hf : f p.state.roster with
  | error e => exact hp
  | ok out => exact (h _ out hf).trans hp

/-- Whatever is done to the deposits, also if it breaks off. -/
theorem inDeposits_populated (e : Recording WorldError Deposits α) :
    Keeps (Populated who) (inDeposits e) := by
  intro p hp
  rw [inDeposits, inTable, Edit.part]
  cases e (p.state.deposits, p.undo) <;> exact hp

theorem inLoot_populated (e : Recording WorldError GroundLoot α) :
    Keeps (Populated who) (inLoot e) := by
  intro p hp
  rw [inLoot, inTable, Edit.part]
  cases e (p.state.loot, p.undo) <;> exact hp

theorem state_populated : Keeps (Populated who) state := fun _ hp ↦ hp

theorem height_populated : Keeps (Populated who) height := fun _ hp ↦ hp

theorem pure_populated (a : α) : Keeps (Populated who) (pure a : Turn α) :=
  Contract.pure fun _ hp ↦ hp

theorem character_populated (id : CharacterId) : Keeps (Populated who) (character id) := by
  apply state_populated.bind
  intro s
  split
  · exact pure_populated _
  · exact fun _ hp ↦ hp

theorem travel_populated (id : CharacterId) (places : List Coord) :
    Keeps (Populated who) (travel id places) := by
  apply (inRoster_populated (Recording.setWaypoints_eq id places)
    (Roster.replace_keepsAll .waypoints id places)).bind
  intro _
  exact inRoster_populated (Recording.stopMining_eq id) (Roster.replace_keepsAll .mining id .idle)

theorem mine_populated (id : CharacterId) : Keeps (Populated who) (mine id) := by
  apply state_populated.bind
  intro s
  apply (character_populated id).bind
  intro c
  exact inRoster_populated (Recording.startIfAllowed_eq s.grid s.deposits id _)
    (Roster.startIfAllowed_keepsAll s.grid s.deposits id _)

theorem pickUp_populated (id : CharacterId) (resource : Resource) (requested : UInt64) :
    Keeps (Populated who) (pickUp id resource requested) := by
  apply (character_populated id).bind
  intro c
  apply (inLoot_populated _).bind
  intro taken
  exact inRoster_populated (Recording.credit_eq id resource taken)
    (Roster.credit_keepsAll id resource taken)

theorem drop_populated (id : CharacterId) (resource : Resource) (requested : UInt64) :
    Keeps (Populated who) (drop id resource requested) := by
  apply (character_populated id).bind
  intro c
  apply (inRoster_populated (Recording.debit_eq id resource _)
    (Roster.debit_keepsAll id resource _)).bind
  intro _
  exact inLoot_populated _

theorem prospect_populated (prospector : Prospector) (id : CharacterId) :
    Keeps (Populated who) (prospect prospector id) := by
  apply state_populated.bind
  intro s
  apply (character_populated id).bind
  intro c
  split
  · exact pure_populated _
  · dsimp only
    split
    · exact pure_populated _
    · apply height_populated.bind
      intro height
      split
      · exact pure_populated _
      · apply height_populated.bind
        intro height
        exact inDeposits_populated _

theorem directive_populated (prospector : Prospector) (id : CharacterId) (d : Directive) :
    Keeps (Populated who) (directive prospector id d) := by
  cases d with
  | waypoints places => exact travel_populated id places
  | mine => exact mine_populated id
  | pickup items => exact Contract.forM fun e _ ↦ pickUp_populated id e.1 e.2
  | drop items => exact Contract.forM fun e _ ↦ drop_populated id e.1 e.2
  | prospect => exact prospect_populated prospector id

theorem move_populated (prospector : Prospector) (id : CharacterId) (m : CharacterMove) :
    Keeps (Populated who) (move prospector id m) := by
  apply state_populated.bind
  intro s
  split
  · exact Contract.forM fun d _ ↦ directive_populated prospector id d
  · exact pure_populated _

/-! ## What a block leaves aside -/

theorem move_eq (prospector : Prospector) (id : CharacterId) (m : CharacterMove) (p : Progress) :
    move prospector id m p = if (p.state.roster.get? id).isSome then
      m.resolve.directives.forM (directive prospector id) p else .ok () p := by
  have hrun : move prospector id m p = (if (p.state.roster.get? id).isSome then
    m.resolve.directives.forM (directive prospector id) else pure () : Turn Unit) p := rfl
  rw [hrun]
  split <;> rfl

theorem move_of_unknown {prospector : Prospector} {id : CharacterId} {p : Progress}
    (m : CharacterMove) (hp : Populated who p) (h : who id = false) :
    move prospector id m p = .ok () p := by
  have hget : (p.state.roster.get? id).isSome = false := (congrFun hp id).trans h
  rw [move_eq, hget]
  rfl

theorem move_of_isEmpty {prospector : Prospector} {id : CharacterId} {m : CharacterMove}
    (h : m.isEmpty = true) (p : Progress) : move prospector id m p = .ok () p := by
  have hnil : m.resolve.directives = [] := by
    refine List.eq_nil_iff_forall_not_mem.2 fun d hd ↦ ?_
    have hd' := (CharacterMove.mem_resolve.1 hd).1
    rw [List.isEmpty_iff.1 h] at hd'
    exact List.not_mem_nil hd'
  rw [move_eq, hnil]
  split <;> rfl

/-- Of a table of moves, those of characters that exist and have directives are carried out. -/
theorem forM_move_filter {prospector : Prospector} {p : Progress} (hp : Populated who p)
    (t : Table CharacterId CharacterMove) :
    t.entries.forM (fun e ↦ move prospector e.1 e.2) p =
      (t.filter fun id m ↦ who id && !m.isEmpty).entries.forM
        (fun e ↦ move prospector e.1 e.2) p := by
  refine forM_filter_of_idle (I := Populated who) (fun e _ ↦ move_populated prospector e.1 e.2)
    (fun e _ p hp htest ↦ ?_) hp
  dsimp only at htest
  cases hwho : who e.1 with
  | false => exact move_of_unknown e.2 hp hwho
  | true =>
    rw [hwho, Bool.true_and, Bool.not_eq_false'] at htest
    exact move_of_isEmpty htest p

/-- Two lists of moves that merge alike for all characters that exist are carried out alike. -/
theorem moves_congr {prospector : Prospector} {p : Progress} (hp : Populated who p)
    {l l' : List (CharacterId × CharacterMove)}
    (h : ∀ id, who id = true → ((CharacterMove.merge l).get? id).getD .empty =
      ((CharacterMove.merge l').get? id).getD .empty) :
    moves prospector l p = moves prospector l' p := by
  have hfilter : (CharacterMove.merge l).filter (fun id m ↦ who id && !m.isEmpty) =
      (CharacterMove.merge l').filter fun id m ↦ who id && !m.isEmpty := by
    refine Table.ext_get? fun id ↦ ?_
    rw [Table.get?_filter, Table.get?_filter]
    cases hwho : who id with
    | false => simp
    | true =>
      have hnonempty : ∀ o : Option CharacterMove, o.filter (fun m ↦ true && !m.isEmpty) =
          (some (o.getD .empty)).filter fun m ↦ true && !m.isEmpty := by
        intro o
        cases o <;> rfl
      rw [hnonempty, h id hwho, ← hnonempty]
  calc moves prospector l p
    _ = ((CharacterMove.merge l).filter fun id m ↦ who id && !m.isEmpty).entries.forM
          (fun e ↦ move prospector e.1 e.2) p := forM_move_filter hp _
    _ = ((CharacterMove.merge l').filter fun id m ↦ who id && !m.isEmpty).entries.forM
          (fun e ↦ move prospector e.1 e.2) p := by rw [hfilter]
    _ = moves prospector l' p := (forM_move_filter hp _).symm

end Turn

section Block

variable {b : BlockInput} {s : GameState} {moves : List (CharacterId × CharacterMove)}

/-- Of its moves, a block sees what they merge to for the characters that exist once it has created
its own. -/
theorem Turn.block_congr (rules : BlockRules)
    (h : ∀ id, (s.opened b).roster.characters.contains id = true →
      BlockInput.moveOf { b with moves := moves } id = b.moveOf id) :
    Turn.block rules { b with moves := moves } ⟨s, .new b.height⟩ =
      Turn.block rules b ⟨s, .new b.height⟩ := by
  cases hcreates : b.creates.forM Turn.create ⟨s, .new b.height⟩ with
  | error e p => exact (bind_of_error hcreates).trans (bind_of_error hcreates).symm
  | ok _ p =>
    obtain ⟨hstate, -, -⟩ := Turn.creates_ok hcreates
    have hp : Populated (s.opened b).roster.characters.contains p := by
      rw [Populated, hstate]
      rfl
    have hmoves : Turn.moves rules.prospector moves p = Turn.moves rules.prospector b.moves p :=
      Turn.moves_congr hp h
    refine (bind_of_ok hcreates).trans (Eq.trans ?_ (bind_of_ok hcreates).symm)
    exact bind_congr_of_eq hmoves

/-- Merging keeps the last directive of each kind of each character that has moves, in the order
of execution. A block comes out the same, whether it succeeds or fails, however its moves are
written down. -/
theorem processBlock_normal_form (rules : BlockRules) (b : BlockInput) (s : GameState) :
    (∀ id, match (CharacterMove.merge b.moves).get? id with
      | none => ∀ m, (id, m) ∉ b.moves
      | some m => (∃ m', (id, m') ∈ b.moves) ∧ m.Canonical ∧ ∀ d, d ∈ m.directives ↔
          CharacterMove.LastOfKind (CharacterMove.directivesOf b.moves id) d) ∧
    ∀ moves, Relation.ReflTransGen
        (CharacterMove.Rewrite fun id ↦ ((s.opened b).roster.get? id).isSome) b.moves moves →
      processBlock rules { b with moves := moves } s = processBlock rules b s := by
  constructor
  · intro id
    cases hget : (CharacterMove.merge b.moves).get? id with
    | none => exact CharacterMove.get?_merge_eq_none_iff.1 hget
    | some m =>
      refine ⟨?_, CharacterMove.of_get?_merge hget⟩
      by_contra hno
      have hnone := CharacterMove.get?_merge_eq_none_iff.2 (not_exists.1 hno)
      rw [hget] at hnone
      cases hnone
  · intro moves hmoves
    have hsame : ∀ id, (s.opened b).roster.characters.contains id = true →
        BlockInput.moveOf { b with moves := moves } id = b.moveOf id := by
      intro id hid
      induction hmoves with
      | refl => rfl
      | tail _ hstep ih => exact (hstep.getD_merge hid).trans ih
    have hblock := Turn.block_congr rules hsame
    rw [processBlock, processBlock, hblock]

end Block

end MiningGame
