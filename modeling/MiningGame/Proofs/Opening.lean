import MiningGame.Block.Process
import MiningGame.Proofs.Mining

/-!
# The phases of a block

A block that succeeds first creates characters, which leaves everything else as it was
(`GameState.opened`). From there the outlines follow each other: the moves in turn, walking,
extraction, and the audit, which changes nothing (`processBlock_phases`).
-/

namespace MiningGame

/-- The merged move of a character in a block. -/
def BlockInput.moveOf (b : BlockInput) (id : CharacterId) : CharacterMove :=
  ((CharacterMove.merge b.moves).get? id).getD .empty

namespace Roster

/-- The roster with a new character, or the same one if it refuses to create it. -/
def createNew (r : Roster) (new : CreateCharacter) : Roster :=
  match r.create new.owner new.name new.position with
  | .ok out => out.state
  | .error _ => r

def createAll (r : Roster) (creates : List CreateCharacter) : Roster := creates.foldl createNew r

end Roster

/-- The state in which a block has created its characters, and nothing else was done. -/
def GameState.opened (s : GameState) (b : BlockInput) : GameState :=
  { s with roster := s.roster.createAll b.creates }

/-- The outline of a state when a block of some height begins. -/
def GameState.outline (s : GameState) (height : UInt64) : Outline :=
  (Progress.mk s (.new height)).outline

/-- The outline in which the moves of a block begin. -/
abbrev GameState.begun (s : GameState) (b : BlockInput) : Outline :=
  (s.opened b).outline b.height

/-- The merged moves of a block, by number. -/
abbrev BlockInput.orders (b : BlockInput) : List (CharacterId × CharacterMove) :=
  (CharacterMove.merge b.moves).entries

theorem BlockInput.orders_ascending (b : BlockInput) : Ascending b.orders :=
  (CharacterMove.merge b.moves).ascending

/-! ## Creating characters -/

namespace Roster

variable {r : Roster} {id : CharacterId} {c : Character}

theorem createNew_cases (r : Roster) (new : CreateCharacter) : r.createNew new = r ∨
    ∃ δ, Change r δ (r.createNew new) ∧ (r.createNew new).characters =
      r.characters.insert r.nextId (.spawn r.nextId new.owner new.name new.position) := by
  unfold createNew
  cases hcreate : r.create new.owner new.name new.position with
  | error e => exact .inl rfl
  | ok out =>
    right
    unfold create at hcreate
    split at hcreate
    · cases hcreate
    · next hfresh =>
      split at hcreate
      · cases hcreate
      · next next hnext =>
        cases hcreate
        exact ⟨_, .create (Bool.not_eq_true _ ▸ hfresh) hnext, rfl⟩

theorem createNew_wellFormed (hr : r.WellFormed) (new : CreateCharacter) :
    (r.createNew new).WellFormed := by
  rcases createNew_cases r new with hsame | ⟨δ, hchange, -⟩
  · rw [hsame]
    exact hr
  · exact hchange.wellFormed hr

/-- Creating characters adds new ones under numbers that were free. -/
theorem get?_createAll (hr : r.WellFormed) (creates : List CreateCharacter) (id : CharacterId) :
    (r.createAll creates).get? id = r.get? id ∨
      r.get? id = none ∧ ∃ new ∈ creates,
        (r.createAll creates).get? id = some (.spawn id new.owner new.name new.position) := by
  induction creates generalizing r with
  | nil => exact .inl rfl
  | cons new rest ih =>
    have hall : r.createAll (new :: rest) = (r.createNew new).createAll rest := rfl
    have hrest := ih (createNew_wellFormed hr new)
    rw [hall]
    rcases createNew_cases r new with hsame | ⟨δ, -, hcharacters⟩
    · rw [hsame] at hrest ⊢
      rcases hrest with hkept | ⟨hfree, new', hnew', hget⟩
      · exact .inl hkept
      · exact .inr ⟨hfree, new', List.mem_cons_of_mem _ hnew', hget⟩
    · have hget : (r.createNew new).get? id =
          if id = r.nextId then some (.spawn r.nextId new.owner new.name new.position)
          else r.get? id := by
        unfold get?
        rw [hcharacters, Table.get?_insert]
        simp only [rank_inj]
      rw [hget] at hrest
      by_cases hid : id = r.nextId
      · subst hid
        rw [if_pos rfl] at hrest
        rcases hrest with hkept | ⟨hfree, -⟩
        · exact .inr ⟨hr.get?_nextId, new, List.mem_cons_self, hkept⟩
        · cases hfree
      · rw [if_neg hid] at hrest
        rcases hrest with hkept | ⟨hfree, new', hnew', hget⟩
        · exact .inl hkept
        · exact .inr ⟨hfree, new', List.mem_cons_of_mem _ hnew', hget⟩

end Roster

namespace GameState

variable {s : GameState} {b : BlockInput} {id : CharacterId} {c : Character}

/-- Whoever is there when the moves begin was there before or has just been created. -/
theorem get?_opened (hs : s.WellFormed) (h : (s.opened b).roster.get? id = some c) :
    s.roster.get? id = some c ∨ s.roster.get? id = none ∧
      ∃ new ∈ b.creates, c = .spawn id new.owner new.name new.position := by
  rcases Roster.get?_createAll hs.roster b.creates id with hkept | ⟨hfree, new, hnew, hget⟩
  · exact .inl (hkept.symm.trans h)
  · exact .inr ⟨hfree, new, hnew, Option.some.inj (h.symm.trans hget)⟩

theorem get?_opened_of_get? (hs : s.WellFormed) (h : s.roster.get? id = some c) :
    (s.opened b).roster.get? id = some c := by
  rcases Roster.get?_createAll hs.roster b.creates id with hkept | ⟨hfree, -⟩
  · exact hkept.trans h
  · cases h.symm.trans hfree

/-- Nobody is created as a miner. -/
theorem manned_opened {height : UInt64} (hs : s.WellFormed) (h : (s.outline height).Manned) :
    ((s.opened b).outline height).Manned := by
  have hold : ∀ id st r, ((s.opened b).outline height).stance? id = some st →
      st.mining = .mining r → (s.outline height).stance? id = some st := by
    intro id st r hst hr
    obtain ⟨c, found, rfl⟩ := Option.map_eq_some_iff.1 hst
    rcases get?_opened hs found with hkept | ⟨-, new, -, rfl⟩
    · exact Roster.stance?_of_get? hkept
    · cases hr
  constructor
  · intro id st r hst hr
    exact h.site id st r (hold id st r hst hr) hr
  · intro id st r hst hr
    exact h.stocked id st r (hold id st r hst hr) hr

end GameState

namespace Turn

theorem exists_of_bind_ok {α β : Type} {t : Turn α} {f : α → Turn β} {p p' : Progress} {b : β}
    (h : (t >>= f) p = .ok b p') : ∃ a p₁, t p = .ok a p₁ ∧ f a p₁ = .ok b p' := by
  cases hrun : t p with
  | ok a p₁ =>
    rw [bind_of_ok hrun] at h
    exact ⟨a, p₁, rfl, h⟩
  | error e p₁ =>
    rw [bind_of_error hrun] at h
    cases h

theorem create_ok {new : CreateCharacter} {p p' : Progress} (h : create new p = .ok () p') :
    p'.state = { p.state with roster := p.state.roster.createNew new } ∧
      p'.undo.height = p.undo.height ∧ p'.undo.taken = p.undo.taken := by
  obtain ⟨out, hout, -, rfl⟩ := inRoster_ok (Recording.createIfNew_eq new) h
  have hnew : out.state = p.state.roster.createNew new := by
    unfold Roster.createNew
    rw [Roster.createIfNew] at hout
    split at hout
    · next hcreated =>
      cases hout
      rw [hcreated]
    · next hdup =>
      cases hout
      rw [hdup]
    · cases hout
  refine ⟨?_, rfl, taken_append_roster (Roster.createIfNew_logs new) hout _⟩
  rw [hnew]

/-- Creating all characters of a block opens it. -/
theorem creates_ok {creates : List CreateCharacter} {p p' : Progress}
    (h : creates.forM create p = .ok () p') :
    p'.state = { p.state with roster := p.state.roster.createAll creates } ∧
      p'.undo.height = p.undo.height ∧ p'.undo.taken = p.undo.taken := by
  induction creates generalizing p with
  | nil =>
    cases h
    exact ⟨rfl, rfl, rfl⟩
  | cons new rest ih =>
    obtain ⟨_, p₁, hfirst, hrest⟩ := exists_of_bind_ok h
    obtain ⟨hstate₁, hheight₁, htaken₁⟩ := create_ok hfirst
    obtain ⟨hstate, hheight, htaken⟩ := ih hrest
    rw [hstate₁] at hstate
    exact ⟨hstate, hheight.trans hheight₁, htaken.trans htaken₁⟩

/-- The moves of a block begin in its first outline. -/
theorem creates_begun {b : BlockInput} {s : GameState} {p : Progress} (hs : s.Tidy)
    (h : b.creates.forM create ⟨s, .new b.height⟩ = .ok () p) :
    p.state.Tidy ∧ p.outline = s.begun b := by
  obtain ⟨hstate, hheight, htaken⟩ := creates_ok h
  refine ⟨((Logs.forM create_logs _).of_ok (Logged.refl _) h).tidy hs, ?_⟩
  rw [Progress.outline, hstate, hheight, htaken]
  rfl

theorem audit_draws {o : Outline} : Draws o audit fun _ o' ↦ o' = o := by
  apply Draws.withHeight
  apply Draws.withState
  rintro p - rfl
  split
  · exact fun _ _ ↦ trivial
  · split
    · exact Draws.pure rfl
    · exact fun _ _ ↦ trivial

end Turn

/-! ## The whole block -/

section Block

variable {rules : BlockRules} {b : BlockInput} {s s' : GameState} {undo : BlockUndo}
  {R : Outline → Outline → Prop}

/-- What a block that succeeds does, one phase after the other; `R` is what is known of walking. -/
theorem processBlock_phases (h : processBlock rules b s = .ok undo s') (hs : s.Tidy)
    (hmanned : (s.outline b.height).Manned)
    (hwalk : ∀ o, Turn.Draws o (Turn.movement rules.movement) fun _ o' ↦ R o o')
    (hkeep : ∀ o o', o.Manned → R o o' → o'.Manned) :
    ∃ o, R ((s.begun b).movedAll rules.prospector b.orders) o ∧
      Outline.Mined o (Progress.mk s' undo).outline := by
  obtain ⟨hrun, -⟩ := processBlock_ok h hs.wellFormed
  obtain ⟨_, p, hcreates, hrest⟩ := Turn.exists_of_bind_ok hrun
  obtain ⟨htidy, hopened⟩ := Turn.creates_begun hs hcreates
  have hmanned' : p.outline.Manned := hopened ▸ GameState.manned_opened hs.wellFormed hmanned
  have hphases : Turn.Draws p.outline (do
      Turn.moves rules.prospector b.moves
      Turn.movement rules.movement
      let _ ← Turn.extraction rules.rate
      Turn.audit) fun _ o' ↦
        ∃ o, R (p.outline.movedAll rules.prospector b.orders) o ∧ Outline.Mined o o' := by
    apply (Turn.moves_draws b.moves).bind
    rintro - o₁ rfl
    apply (hwalk _).bind
    intro _ o₂ ho₂
    have hmanned₂ := hkeep _ _ (hmanned'.movedAll rules.prospector _) ho₂
    apply (Turn.extraction_draws rules.rate hmanned₂).bind
    intro _ o₃ ho₃
    apply Turn.audit_draws.mono
    rintro - o₄ rfl
    exact ⟨o₂, ho₂, ho₃⟩
  obtain ⟨-, hfinal⟩ := hphases.of_ok htidy hrest
  rw [hopened] at hfinal
  exact hfinal

end Block

end MiningGame
