import MiningGame.Proofs.Merging
import MiningGame.Proofs.Occupation

/-!
# Journeys

A character that is sent on a way takes one step of it in every block, until it is there or is sent
elsewhere (`Stance.Underway`). While it is still going when its move comes, it can neither mine nor
prospect, so what its moves ask of either can be left out of the block
(`processBlock_withoutWork`). Both together tell where the character is after each block and what it
does there, whatever the others do (`Trail.run_journey`).
-/

namespace MiningGame

/-! ## Moves without mining and prospecting -/

/-- Mining and prospecting are work. -/
def Directive.isWork : Directive → Bool
  | mine => true
  | prospect => true
  | _ => false

namespace CharacterMove

def withoutWork (m : CharacterMove) : CharacterMove := ⟨m.directives.filter (!·.isWork)⟩

/-- Moves with the work left out of those of one character. -/
def withoutWorkOf (id : CharacterId) (moves : List (CharacterId × CharacterMove)) :
    List (CharacterId × CharacterMove) :=
  moves.map fun e ↦ (e.1, if e.1 = id then e.2.withoutWork else e.2)

variable {m : CharacterMove} {d : Directive} {ds : List Directive}
  {moves : List (CharacterId × CharacterMove)} {id k : CharacterId}

@[simp] theorem mem_withoutWork :
    d ∈ m.withoutWork.directives ↔ d ∈ m.directives ∧ d.isWork = false := by
  simp [withoutWork]

theorem Canonical.withoutWork (h : m.Canonical) : m.withoutWork.Canonical :=
  List.Pairwise.filter _ h

theorem waypoints?_withoutWork : m.withoutWork.waypoints? = m.waypoints? := by
  simp only [waypoints?, withoutWork]
  induction m.directives with
  | nil => rfl
  | cons d rest ih => cases d <;> first | rfl | exact ih

/-- Of a move without work, a block carries out what it carries out of the move itself, but no
work. -/
theorem Canonical.resolve_withoutWork (h : m.Canonical) :
    m.withoutWork.resolve = m.resolve.withoutWork := by
  refine h.withoutWork.resolve.ext h.resolve.withoutWork fun d ↦ ?_
  simp only [mem_resolve, mem_withoutWork, waypoints?_withoutWork]
  cases d <;> simp [Directive.isWork]

theorem withoutWork_eq_self (h : ∀ d ∈ m.directives, d.isWork = false) : m.withoutWork = m := by
  have hall : m.directives.filter (!·.isWork) = m.directives :=
    List.filter_eq_self.2 fun d hd ↦ by simp [h d hd]
  rw [withoutWork, hall]

/-! ### Leaving out work and merging -/

/-- A test that tells kinds apart keeps or drops all directives of a kind, so the last ones stay
the last. -/
theorem lastOfKind_filter {keep : Directive → Bool}
    (hkeep : ∀ d e : Directive, d.rank = e.rank → keep d = keep e) :
    LastOfKind (ds.filter keep) d ↔ LastOfKind ds d ∧ keep d = true := by
  induction ds using List.reverseRecOn with
  | nil => simp [not_lastOfKind_nil]
  | append_singleton ds e ih =>
    rw [List.filter_append, lastOfKind_concat]
    cases he : keep e with
    | true =>
      rw [List.filter_cons_of_pos he, List.filter_nil, lastOfKind_concat, ih]
      constructor
      · rintro (rfl | ⟨⟨hlast, hd⟩, hne⟩)
        · exact ⟨.inl rfl, he⟩
        · exact ⟨.inr ⟨hlast, hne⟩, hd⟩
      · rintro ⟨rfl | ⟨hlast, hne⟩, hd⟩
        · exact .inl rfl
        · exact .inr ⟨⟨hlast, hd⟩, hne⟩
    | false =>
      rw [List.filter_cons_of_neg (by simp [he]), List.filter_nil, List.append_nil, ih]
      constructor
      · rintro ⟨hlast, hd⟩
        refine ⟨.inr ⟨hlast, fun hrank ↦ ?_⟩, hd⟩
        rw [hkeep d e hrank, he] at hd
        cases hd
      · rintro ⟨rfl | ⟨hlast, -⟩, hd⟩
        · rw [he] at hd
          cases hd
        · exact ⟨hlast, hd⟩

theorem pushAll_filter_work :
    empty.pushAll (ds.filter (!·.isWork)) = (empty.pushAll ds).withoutWork := by
  have hcanonical : ∀ ds, (empty.pushAll ds).Canonical := canonical_empty.pushAll
  refine (hcanonical _).ext (hcanonical ds).withoutWork fun d ↦ ?_
  rw [mem_pushAll_empty, mem_withoutWork, mem_pushAll_empty, lastOfKind_filter, Bool.not_eq_true']
  intro d e hrank
  cases d <;> cases e <;> first | rfl | cases hrank

theorem directivesOf_withoutWorkOf : directivesOf (withoutWorkOf id moves) k =
    if k = id then (directivesOf moves k).filter (!·.isWork) else directivesOf moves k := by
  induction moves using List.reverseRecOn with
  | nil => simp [directivesOf, withoutWorkOf]
  | append_singleton moves e ih =>
    have hconcat : withoutWorkOf id (moves ++ [e]) = withoutWorkOf id moves ++
        [(e.1, if e.1 = id then e.2.withoutWork else e.2)] := List.map_append
    rw [hconcat, directivesOf_concat, directivesOf_concat, ih]
    by_cases hk : k = e.1
    · subst hk
      by_cases hid : e.1 = id
      · simp [hid, withoutWork, List.filter_append]
      · simp [hid]
    · simp [hk]

theorem mem_withoutWorkOf : (k, m) ∈ withoutWorkOf id moves ↔
    ∃ m', (k, m') ∈ moves ∧ m = if k = id then m'.withoutWork else m' := by
  rw [withoutWorkOf, List.mem_map]
  constructor
  · rintro ⟨⟨k, m'⟩, hmem, heq⟩
    cases heq
    exact ⟨m', hmem, rfl⟩
  · rintro ⟨m', hmem, rfl⟩
    exact ⟨(k, m'), hmem, rfl⟩

theorem get?_merge_withoutWorkOf : (merge (withoutWorkOf id moves)).get? k =
    ((merge moves).get? k).map fun m ↦ if k = id then m.withoutWork else m := by
  have hgetD : ((merge (withoutWorkOf id moves)).get? k).getD empty =
      if k = id then (((merge moves).get? k).getD empty).withoutWork
      else ((merge moves).get? k).getD empty := by
    rw [getD_merge_eq, getD_merge_eq, directivesOf_withoutWorkOf]
    split
    · exact pushAll_filter_work
    · rfl
  cases hget : (merge moves).get? k with
  | none =>
    have habsent := get?_merge_eq_none_iff.1 hget
    refine get?_merge_eq_none_iff.2 fun m hmem ↦ ?_
    obtain ⟨m', hmem', -⟩ := mem_withoutWorkOf.1 hmem
    exact habsent m' hmem'
  | some m =>
    cases hget' : (merge (withoutWorkOf id moves)).get? k with
    | none =>
      have habsent := get?_merge_eq_none_iff.1 hget'
      have hnone : (merge moves).get? k = none := get?_merge_eq_none_iff.2 fun m hmem ↦
        habsent _ (mem_withoutWorkOf.2 ⟨m, hmem, rfl⟩)
      cases hget.symm.trans hnone
    | some m' =>
      rw [hget, hget'] at hgetD
      exact congrArg some hgetD

/-- Work can be left out before or after merging. -/
theorem merge_withoutWorkOf (id : CharacterId) (moves : List (CharacterId × CharacterMove)) :
    (merge (withoutWorkOf id moves)).entries = withoutWorkOf id (merge moves).entries := by
  have hkeys : Ascending (withoutWorkOf id (merge moves).entries) :=
    List.pairwise_map.2 (merge moves).ascending
  refine Table.eq_of_mem_iff (merge (withoutWorkOf id moves)).ascending hkeys fun e ↦ ?_
  obtain ⟨k, m⟩ := e
  rw [← Table.get?_eq_some_iff, get?_merge_withoutWorkOf, Option.map_eq_some_iff, mem_withoutWorkOf]
  refine exists_congr fun m' ↦ and_congr Table.get?_eq_some_iff eq_comm

end CharacterMove

/-! ## A character on its way does no work -/

/-- Unless its move sends it away, a character is on its way. -/
def Going (id : CharacterId) (own : CharacterMove) (o : Outline) : Prop :=
  own.waypoints? = none → ∀ st, o.stance? id = some st → st.waypoints ≠ []

theorem Going.moved {id k : CharacterId} {own m : CharacterMove} {o : Outline}
    {prospector : Prospector} (h : Going id own o) (hm : k = id → m = own) :
    Going id own (o.moved prospector k m) := by
  intro hway st hst
  rw [Outline.moved_stance?] at hst
  by_cases hk : id = k
  · subst hk
    rw [Function.update_self] at hst
    obtain ⟨before, hbefore, rfl⟩ := Option.map_eq_some_iff.1 hst
    rw [hm rfl, (o.told_place hway).2]
    exact h hway before hbefore
  · rw [Function.update_of_ne hk] at hst
    exact h hway st hst

namespace Turn

variable {id : CharacterId} {prospector : Prospector} {m : CharacterMove} {st : Stance}
  {p : Progress}

theorem mine_of_going (htidy : p.state.Tidy) (hst : p.outline.stance? id = some st)
    (hgoing : st.waypoints ≠ []) : mine id p = .ok () p := by
  obtain ⟨c, found, rfl⟩ := Option.map_eq_some_iff.1 hst
  have hrejected : Roster.rejection? p.state.grid p.state.deposits c
      (p.state.grid.regionAt c.position) ≠ none := by
    rw [ne_eq, Outline.rejection?_eq_none_iff htidy]
    exact fun hmines ↦ hgoing hmines.2.1
  obtain ⟨reason, hreason⟩ := Option.ne_none_iff_exists'.1 hrejected
  rw [mine, bind_of_ok (t := state) rfl, bind_of_ok (character_of_get? found),
    inRoster_eq (Recording.startIfAllowed_eq _ _ _ _), onRoster, Roster.startIfAllowed,
    Roster.startMining_of_get? found, hreason]
  simp only [BlockUndo.append_nil]

theorem prospect_of_going (hst : p.outline.stance? id = some st) (hgoing : st.waypoints ≠ []) :
    prospect prospector id p = .ok () p := by
  obtain ⟨c, found, rfl⟩ := Option.map_eq_some_iff.1 hst
  have hmoving : c.isMoving = true := by simpa [Character.isMoving, Character.stance] using hgoing
  rw [prospect, bind_of_ok (t := state) rfl, bind_of_ok (character_of_get? found), if_pos hmoving]
  rfl

/-- While it goes somewhere, what a character is told to do is the same without work. -/
theorem work_of_going (hway : m.waypoints? = none) (htidy : p.state.Tidy)
    (hst : p.outline.stance? id = some st) (hgoing : st.waypoints ≠ []) :
    m.resolve.withoutWork.directives.forM (directive prospector id) p =
      m.resolve.directives.forM (directive prospector id) p := by
  generalize houtline : p.outline = o at hst
  have hidle : ∀ (d : Directive) (q : Progress), q.state.Tidy ∧ q.outline = o →
      d.isWork = true → directive prospector id d q = .ok () q := by
    rintro d q ⟨htidy, rfl⟩ hwork
    cases d with
    | mine => exact mine_of_going htidy hst hgoing
    | prospect => exact prospect_of_going hst hgoing
    | _ => cases hwork
  -- Neither work nor carrying shows in the outline, so the character is on its way throughout.
  have hkeep : ∀ d ∈ m.resolve.directives,
      Draws o (directive prospector id d) fun _ o' ↦ o' = o := by
    intro d hd
    cases d with
    | waypoints places => exact absurd rfl (CharacterMove.resolve_rank_ne_zero hway hd)
    | pickup items => exact Draws.forM_self fun e _ ↦ pickUp_draws e.1 e.2
    | drop items => exact Draws.forM_self fun e _ ↦ drop_draws e.1 e.2
    | mine =>
      intro q hq
      rw [hidle .mine q hq rfl]
      exact hq
    | prospect =>
      intro q hq
      rw [hidle .prospect q hq rfl]
      exact hq
  refine (forM_filter_of_idle hkeep (fun d _ q hq hwork ↦ ?_) ⟨htidy, houtline⟩).symm
  exact hidle d q hq (by simpa using hwork)

/-- A move that sends its character away, or finds it on its way, is carried out alike without
work. -/
theorem move_withoutWork (hm : m.Canonical) (htidy : p.state.Tidy)
    (hgoing : Going id m p.outline) :
    move prospector id m.withoutWork p = move prospector id m p := by
  rw [move_eq, move_eq, hm.resolve_withoutWork]
  cases found : p.state.roster.get? id with
  | none => rfl
  | some c =>
    simp only [Option.isSome_some, if_true]
    cases hway : m.waypoints? with
    | none =>
      have hst : p.outline.stance? id = some c.stance := Roster.stance?_of_get? found
      exact work_of_going hway htidy hst (hgoing hway c.stance hst)
    | some places =>
      have hself : m.resolve.withoutWork = m.resolve := by
        refine CharacterMove.withoutWork_eq_self fun d hd ↦ ?_
        obtain ⟨-, hmine, hprospect⟩ := CharacterMove.mem_resolve.1 hd
        rw [hway] at hmine hprospect
        cases d with
        | mine => cases hmine rfl
        | prospect => cases (hprospect rfl).1
        | _ => rfl
      rw [hself]

/-- Until its own turn comes nobody else changes where a character goes, so its work can be left
out of all moves of a block. -/
theorem moves_withoutWork {all : List (CharacterId × CharacterMove)} (htidy : p.state.Tidy)
    (hgoing : Going id (((CharacterMove.merge all).get? id).getD .empty) p.outline) :
    moves prospector (CharacterMove.withoutWorkOf id all) p = moves prospector all p := by
  generalize hown : ((CharacterMove.merge all).get? id).getD .empty = own at hgoing
  have howned : ∀ m, (id, m) ∈ (CharacterMove.merge all).entries → m = own := by
    intro m hm
    rw [← hown, Table.get?_eq_some_iff.2 hm, Option.getD_some]
  have hcanonical : ∀ e ∈ (CharacterMove.merge all).entries, e.2.Canonical :=
    fun e he ↦ CharacterMove.merge_canonical (Table.get?_eq_some_iff.2 he)
  have hkeeps : ∀ e ∈ (CharacterMove.merge all).entries,
      Contract (fun p ↦ p.state.Tidy ∧ Going id own p.outline) (move prospector e.1 e.2)
        (fun _ p ↦ p.state.Tidy ∧ Going id own p.outline) fun _ _ ↦ True := by
    rintro ⟨k, m⟩ he p ⟨htidy, hgoing⟩
    have hmoved : Draws p.outline (move prospector k m) fun _ o' ↦ Going id own o' := by
      refine (move_draws (hcanonical _ he)).mono ?_
      rintro - o' rfl
      refine hgoing.moved ?_
      rintro rfl
      exact howned m he
    exact hmoved p ⟨htidy, rfl⟩
  rw [moves, moves, CharacterMove.merge_withoutWorkOf]
  refine forM_map_of_same hkeeps ?_ ⟨htidy, hgoing⟩
  rintro ⟨k, m⟩ he p ⟨htidy, hgoing⟩
  dsimp only
  split
  · next hk =>
    subst hk
    obtain rfl := howned m he
    exact move_withoutWork (hcanonical _ he) htidy hgoing
  · rfl

end Turn

/-- The block without the work that the moves of a character ask for. -/
def BlockInput.withoutWork (b : BlockInput) (id : CharacterId) : BlockInput :=
  { b with moves := CharacterMove.withoutWorkOf id b.moves }

/-- A block comes out the same, whether it succeeds or fails, without the work of a character that
it sends away or finds on its way. -/
theorem processBlock_withoutWork {rules : BlockRules} {b : BlockInput} {s : GameState}
    {id : CharacterId} (hs : s.Tidy) (hgoing : Going id (b.moveOf id) (s.begun b)) :
    processBlock rules (b.withoutWork id) s = processBlock rules b s := by
  have hblock : Turn.block rules (b.withoutWork id) ⟨s, .new b.height⟩ =
      Turn.block rules b ⟨s, .new b.height⟩ := by
    cases hcreates : b.creates.forM Turn.create ⟨s, .new b.height⟩ with
    | error e p => exact (bind_of_error hcreates).trans (bind_of_error hcreates).symm
    | ok _ p =>
      obtain ⟨htidy, hopened⟩ := Turn.creates_begun hs hcreates
      have hmoves : Turn.moves rules.prospector (b.withoutWork id).moves p =
          Turn.moves rules.prospector b.moves p :=
        Turn.moves_withoutWork htidy (hopened ▸ hgoing)
      refine (bind_of_ok hcreates).trans (Eq.trans ?_ (bind_of_ok hcreates).symm)
      exact bind_congr_of_eq hmoves
  have hheight : (b.withoutWork id).height = b.height := rfl
  rw [processBlock, processBlock, hheight, hblock]

/-! ## Where a character is on its way -/

/-- A character on its way that is not sent elsewhere does not heed its move. -/
theorem Outline.told_of_going (o : Outline) {m : CharacterMove} {st : Stance}
    (hunsent : m.waypoints? = none) (hgoing : st.waypoints ≠ []) : o.told m st = st := by
  have hstarted : o.started st = st := if_neg fun hstart ↦ hgoing hstart.2.1
  simp only [told, hunsent, hstarted, ite_self]

namespace Stance

/-- After as many further blocks as are counted, a character that was sent to places one after the
other stands at the next of them, or at the last once it is there. While it goes it does not
mine. -/
structure Underway (places : List Coord) (i : Nat) (st : Stance) : Prop where
  position : places[min i (places.length - 1)]? = some st.position
  waypoints : st.waypoints = places.drop (i + 1)
  idle : i < places.length → st.mining = .idle

variable {st : Stance} {places : List Coord} {i : Nat} {m : CharacterMove}

theorem underway_sent (o o' : Outline) (hway : m.waypoints? = some places) (hplaces : places ≠ []) :
    Underway places 0 (o'.rested (o.told m st).walked) := by
  obtain ⟨next, rest, rfl⟩ := List.exists_cons_of_ne_nil hplaces
  have hstance : o'.rested (o.told m st).walked = ⟨next, rest, .idle⟩ := by
    simp [Outline.rested, Outline.told, hway, sent, walked, stepped]
  rw [hstance]
  exact ⟨rfl, rfl, fun _ ↦ rfl⟩

/-- One block takes a character one place further. -/
theorem Underway.next (h : Underway places i st) (hunsent : m.waypoints? = none) (o o' : Outline) :
    Underway places (i + 1) (o'.rested (o.told m st).walked) := by
  by_cases hlast : i + 1 < places.length
  · have hway : st.waypoints = places[i + 1] :: places.drop (i + 2) :=
      h.waypoints.trans (List.drop_eq_getElem_cons hlast)
    have hidle := h.idle (by omega)
    have hwalked : st.walked = ⟨places[i + 1], places.drop (i + 2), .idle⟩ := by
      simp only [walked, hway, stepped, hidle, ite_self]
    have hgoing : st.waypoints ≠ [] := by
      rw [hway]
      exact List.cons_ne_nil _ _
    have hmin : min (i + 1) (places.length - 1) = i + 1 := by omega
    rw [o.told_of_going hunsent hgoing, hwalked, Outline.rested]
    refine ⟨?_, rfl, fun _ ↦ rfl⟩
    rw [hmin]
    exact List.getElem?_eq_getElem hlast
  · have hresting : st.waypoints = [] := h.waypoints.trans (List.drop_eq_nil_of_le (by omega))
    obtain ⟨hposition, hway⟩ := Outline.place_of_unsent (o := o) o' hunsent hresting
    have hmin : min (i + 1) (places.length - 1) = min i (places.length - 1) := by omega
    refine ⟨?_, ?_, fun hlt ↦ absurd hlt hlast⟩
    · rw [hmin, hposition]
      exact h.position
    · rw [hway]
      exact (List.drop_eq_nil_of_le (by omega)).symm

end Stance

/-! ## From block to block -/

/-- Blocks that are processed one after the other, all of them with success, with the undo record
of each and the state after it. -/
inductive Passes (rules : BlockRules) :
    GameState → List BlockInput → List (BlockUndo × GameState) → Prop
  | nil {s : GameState} : Passes rules s [] []
  | cons {s s' : GameState} {b : BlockInput} {undo : BlockUndo} {blocks : List BlockInput}
      {stages : List (BlockUndo × GameState)} (processed : processBlock rules b s = .ok undo s')
      (rest : Passes rules s' blocks stages) :
      Passes rules s (b :: blocks) ((undo, s') :: stages)

section Journey

variable {rate : UInt64} {prospector : Prospector} {b : BlockInput} {s s' : GameState}
  {undo : BlockUndo} {id : CharacterId} {c : Character} {places : List Coord} {i : Nat}

/-- Whoever is there when the moves of a block begin is there in the end: it was told its own move,
has walked, and rests if nothing is left where it mines. -/
theorem processBlock_told (h : processBlock ⟨rate, prospector, .walk⟩ b s = .ok undo s')
    (hs : s.Tidy) (hmanned : (s.outline b.height).Manned)
    (found : (s.opened b).roster.get? id = some c) : ∃ c' o o', s'.roster.get? id = some c' ∧
      c'.stance = Outline.rested o' (Outline.told o (b.moveOf id) c.stance).walked := by
  have hst : (s.begun b).stance? id = some c.stance := Roster.stance?_of_get? found
  have hpresent : ((s.begun b).stance? id).isSome := Option.isSome_of_eq_some hst
  obtain ⟨c', found'⟩ := processBlock_present h hs hmanned id hpresent
  obtain ⟨c₀, found₀, hstance⟩ := processBlock_stance h hs hmanned found'
  cases found.symm.trans found₀
  exact ⟨c', _, _, found', hstance⟩

/-- A character that is on its way, and is sent nowhere else, goes on from block to block, and until
it is there the blocks can do without its work. -/
theorem Passes.underway {blocks : List BlockInput} {stages : List (BlockUndo × GameState)}
    (h : Passes ⟨rate, prospector, .walk⟩ s blocks stages) (hs : s.Tidy)
    (hmanned : ∀ height, (s.outline height).Manned)
    (hunsent : ∀ b ∈ blocks, (b.moveOf id).waypoints? = none)
    (found : s.roster.get? id = some c) (hc : c.stance.Underway places i) :
    (∀ (k : Nat) (undo : BlockUndo) (s' : GameState), stages[k]? = some (undo, s') →
      ∃ c', s'.roster.get? id = some c' ∧ c'.stance.Underway places (i + 1 + k)) ∧
    Passes ⟨rate, prospector, .walk⟩ s
      ((blocks.take (places.length - (i + 1))).map (·.withoutWork id) ++
        blocks.drop (places.length - (i + 1))) stages := by
  induction h generalizing i c with
  | nil =>
    rw [List.take_nil, List.drop_nil]
    refine ⟨fun k undo s' hk ↦ ?_, .nil⟩
    rw [List.getElem?_nil] at hk
    cases hk
  | @cons s s' b undo blocks stages processed rest ih =>
    obtain ⟨hb, hblocks⟩ := List.forall_mem_cons.1 hunsent
    have hopened := GameState.get?_opened_of_get? (b := b) hs.wellFormed found
    obtain ⟨c', o, o', found', hstance⟩ := processBlock_told processed hs (hmanned _) hopened
    have hnext : c'.stance.Underway places (i + 1) := hstance ▸ hc.next hb o o'
    obtain ⟨hlater, hpasses⟩ := ih (processBlock_tidy processed hs)
      (processBlock_manned processed hs hmanned) hblocks found' hnext
    constructor
    · intro k undo' s'' hk
      cases k with
      | zero =>
        cases hk
        exact ⟨c', found', hnext⟩
      | succ k =>
        have hcount : i + 1 + (k + 1) = i + 1 + 1 + k := by omega
        rw [hcount]
        exact hlater k undo' s'' hk
    · by_cases hlast : i + 1 < places.length
      · have hcount : places.length - (i + 1) = places.length - (i + 1 + 1) + 1 := by omega
        have hgoing : Going id (b.moveOf id) (s.begun b) := by
          intro _ st hst
          cases (Roster.stance?_of_get? hopened).symm.trans hst
          rw [hc.waypoints, ne_eq, List.drop_eq_nil_iff]
          omega
        rw [hcount]
        exact .cons ((processBlock_withoutWork hs hgoing).trans processed) hpasses
      · have hnone : places.length - (i + 1) = 0 := by omega
        rw [hnone]
        exact .cons processed rest

/-- The same for a character that is sent on its way in the first block. -/
theorem Passes.journey {first : BlockInput} {rest : List BlockInput}
    {stages : List (BlockUndo × GameState)}
    (h : Passes ⟨rate, prospector, .walk⟩ s (first :: rest) stages) (hs : s.Tidy)
    (hmanned : ∀ height, (s.outline height).Manned)
    (found : (s.opened first).roster.get? id = some c)
    (hsent : (first.moveOf id).waypoints? = some places) (hplaces : places ≠ [])
    (hunsent : ∀ b ∈ rest, (b.moveOf id).waypoints? = none) :
    (∀ (i : Nat) (undo : BlockUndo) (s' : GameState), stages[i]? = some (undo, s') →
      ∃ c', s'.roster.get? id = some c' ∧ c'.stance.Underway places i) ∧
    Passes ⟨rate, prospector, .walk⟩ s
      (((first :: rest).take places.length).map (·.withoutWork id) ++
        (first :: rest).drop places.length) stages := by
  cases h with
  | @cons _ s' _ undo _ stages processed later =>
    obtain ⟨c', o, o', found', hstance⟩ := processBlock_told processed hs (hmanned _) found
    have hstart : c'.stance.Underway places 0 := hstance ▸ Stance.underway_sent o o' hsent hplaces
    obtain ⟨hlater, hpasses⟩ := later.underway (processBlock_tidy processed hs)
      (processBlock_manned processed hs hmanned) hunsent found' hstart
    constructor
    · intro i undo' s'' hi
      cases i with
      | zero =>
        cases hi
        exact ⟨c', found', hstart⟩
      | succ i =>
        have hcount : i + 1 = 0 + 1 + i := by omega
        rw [hcount]
        exact hlater i undo' s'' hi
    · have hgoing : Going id (first.moveOf id) (s.begun first) :=
        fun hnone ↦ nomatch hsent.symm.trans hnone
      have hcount : places.length = places.length - (0 + 1) + 1 := by
        have hpositive := List.length_pos_iff.2 hplaces
        omega
      rw [hcount]
      exact .cons ((processBlock_withoutWork hs hgoing).trans processed) hpasses

end Journey

namespace Trail

variable {rules : BlockRules} {rate : UInt64} {prospector : Prospector} {o : Origin}
  {calls : List Call} {first : BlockInput} {rest : List BlockInput}
  {stages : List (BlockUndo × GameState)} {id : CharacterId} {c : Character} {places : List Coord}

/-- After any run, let a character be sent on a way and blocks follow that do not send it elsewhere.
Whatever these ask of it and of others, each takes it exactly one place further until it is there,
so where it stands and goes depends on nothing but the way and the number of blocks, and while it
goes it does not mine. All states stay the same if the work of the character is left out of as many
blocks as it has places to go. -/
theorem run_journey
    (passes : Passes ⟨rate, prospector, .walk⟩ (run rules o calls).node.state (first :: rest)
      stages)
    (found : ((run rules o calls).node.state.opened first).roster.get? id = some c)
    (sent : (first.moveOf id).waypoints? = some places) (far : places ≠ [])
    (unsent : ∀ b ∈ rest, (b.moveOf id).waypoints? = none) :
    (∀ (i : Nat) (undo : BlockUndo) (s' : GameState), stages[i]? = some (undo, s') →
      ∃ c', s'.roster.get? id = some c' ∧ c'.stance.Underway places i) ∧
    Passes ⟨rate, prospector, .walk⟩ (run rules o calls).node.state
      (((first :: rest).take places.length).map (·.withoutWork id) ++
        (first :: rest).drop places.length) stages :=
  have hsound := sound_run rules o calls
  passes.journey hsound.tidy hsound.manned found sent far unsent

namespace Sample

/-- The first character is to mine and to walk, first to where it is. -/
def depart : BlockInput :=
  ⟨4, ⟨"d"⟩, ⟨"c"⟩, [⟨"owner", "second", ⟨20, 4⟩⟩],
    [(.first, ⟨[.mine, .waypoints [⟨3, 4⟩, ⟨20, 4⟩]]⟩), (⟨2⟩, ⟨[.prospect]⟩)]⟩

/-- On its way it is to prospect, and to mine where others have found something. -/
def onward : BlockInput :=
  ⟨5, ⟨"e"⟩, ⟨"d"⟩, [], [(⟨2⟩, ⟨[.mine]⟩), (.first, ⟨[.prospect]⟩), (.first, ⟨[.mine]⟩)]⟩

end Sample

/-- In two blocks the first character stays where it is and then goes to the second, without
mining. -/
theorem run_journey_sample : ∃ stages,
    let s := (run (Sample.seven 10) Sample.origin Sample.direct).node.state
    Passes (Sample.seven 3) s [Sample.depart, Sample.onward] stages ∧
    (∀ (i : Nat) (undo : BlockUndo) (s' : GameState), stages[i]? = some (undo, s') →
      ∃ c', s'.roster.get? .first = some c' ∧
        c'.stance.Underway [⟨3, 4⟩, ⟨20, 4⟩] i) ∧
    Passes (Sample.seven 3) s
      [Sample.depart.withoutWork .first, Sample.onward.withoutWork .first] stages := by
  generalize hs : (run (Sample.seven 10) Sample.origin Sample.direct).node.state = s
  have hruns : ((outcome? (processBlock (Sample.seven 3) Sample.depart s)).bind fun x ↦
      outcome? (processBlock (Sample.seven 3) Sample.onward x.2)).isSome = true := by
    subst hs
    decide +kernel
  obtain ⟨⟨undo', s''⟩, hruns⟩ := Option.isSome_iff_exists.1 hruns
  obtain ⟨⟨undo, s'⟩, hfirst, hsecond⟩ := Option.bind_eq_some_iff.1 hruns
  rw [outcome?_eq_some_iff] at hfirst hsecond
  have hpasses : Passes (Sample.seven 3) s [Sample.depart, Sample.onward]
      [(undo, s'), (undo', s'')] := .cons hfirst (.cons hsecond .nil)
  have hfound : ((s.opened Sample.depart).roster.get? .first).isSome = true := by
    subst hs
    decide +kernel
  obtain ⟨c, found⟩ := Option.isSome_iff_exists.1 hfound
  subst hs
  refine ⟨_, hpasses, run_journey hpasses found ?_ ?_ ?_⟩
  · decide
  · decide
  · decide

end Trail

end MiningGame
