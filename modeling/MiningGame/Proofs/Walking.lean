import MiningGame.Proofs.Outline

/-!
# What walking does

Whatever the policy, walking changes stances only, and nobody comes out of it mining who did not
mine the same region from the same place before (`Outline.Roamed`). With the policy that follows the
waypoints, every character makes exactly one step of its way (`Outline.walked`).
-/

namespace MiningGame

/-- The stance of a character that takes a step. -/
def Stance.stepped (st : Stance) (s : Step) : Stance :=
  ⟨s.position, s.waypoints, if st.position = s.position then st.mining else .idle⟩

/-- The stance of a character that walks to its next waypoint. -/
def Stance.walked (st : Stance) : Stance :=
  match st.waypoints with
  | [] => st
  | next :: rest => st.stepped ⟨next, rest⟩

namespace Movement

variable {c : Character}

theorem walk_eq_none_iff : walk c = none ↔ c.waypoints = [] := by
  rw [walk]
  cases c.waypoints <;> simp

theorem walk_eq_some_iff {s : Step} :
    walk c = some s ↔ c.waypoints = s.position :: s.waypoints := by
  rcases s with ⟨position, waypoints⟩
  rw [walk]
  cases c.waypoints <;> simp

end Movement

namespace Outline

def walked (o : Outline) : Outline :=
  { o with stance? := fun id ↦ (o.stance? id).map Stance.walked }

/-- What a policy makes of one character. -/
inductive Strides (policy : Movement) (o : Outline) (id : CharacterId) : Outline → Prop
  | absent (gone : o.stance? id = none) : Strides policy o id o
  | rest {c : Character} (found : o.stance? id = some c.stance) (stays : policy c = none) :
      Strides policy o id o
  | step {c : Character} {s : Step} (found : o.stance? id = some c.stance)
      (goes : policy c = some s) : Strides policy o id (o.withStance id (c.stance.stepped s))

/-- Only stances have changed, and whoever mines did so before, at the same place. -/
structure Roamed (o o' : Outline) : Prop where
  height : o'.height = o.height
  grid : o'.grid = o.grid
  record? : o'.record? = o.record?
  prospected : o'.prospected = o.prospected
  taken : o'.taken = o.taken
  exists_iff : ∀ id, (o'.stance? id).isSome ↔ (o.stance? id).isSome
  mines : ∀ id st' r, o'.stance? id = some st' → st'.mining = .mining r →
    ∃ st, o.stance? id = some st ∧ st.mining = .mining r ∧ st.position = st'.position

namespace Roamed

variable {o o' o'' : Outline}

theorem refl (o : Outline) : Roamed o o :=
  ⟨rfl, rfl, rfl, rfl, rfl, fun _ ↦ Iff.rfl, fun _ st' _ hst hr ↦ ⟨st', hst, hr, rfl⟩⟩

theorem trans (h : Roamed o o') (h' : Roamed o' o'') : Roamed o o'' where
  height := h'.height.trans h.height
  grid := h'.grid.trans h.grid
  record? := h'.record?.trans h.record?
  prospected := h'.prospected.trans h.prospected
  taken := h'.taken.trans h.taken
  exists_iff := fun id ↦ (h'.exists_iff id).trans (h.exists_iff id)
  mines := by
    intro id st'' r hst'' hr''
    obtain ⟨st', hst', hr', hplace'⟩ := h'.mines id st'' r hst'' hr''
    obtain ⟨st, hst, hr, hplace⟩ := h.mines id st' r hst' hr'
    exact ⟨st, hst, hr, hplace.trans hplace'⟩

end Roamed

variable {o o' : Outline} {policy : Movement} {id : CharacterId}

theorem Strides.roamed (h : Strides policy o id o') : Roamed o o' := by
  cases h with
  | absent => exact .refl o
  | rest => exact .refl o
  | @step c s found goes =>
    refine ⟨rfl, rfl, rfl, rfl, rfl, ?_, ?_⟩
    · intro id'
      by_cases hid : id' = id
      · subst hid
        simp [withStance, found]
      · simp [withStance, hid]
    · intro id' st' r hst' hr
      by_cases hid : id' = id
      · subst hid
        simp only [withStance, Function.update_self, Option.some.injEq] at hst'
        subst hst'
        simp only [Stance.stepped] at hr
        split at hr
        · next hplace => exact ⟨c.stance, found, hr, hplace⟩
        · cases hr
      · simp only [withStance, Function.update_of_ne hid] at hst'
        exact ⟨st', hst', hr, rfl⟩

theorem Strides.walk (h : Strides .walk o id o') : o' =
    { o with stance? := Function.update o.stance? id ((o.stance? id).map Stance.walked) } := by
  have hself : ∀ x, o.stance? id = x →
      { o with stance? := Function.update o.stance? id x } = o := by
    rintro _ rfl
    rw [Function.update_eq_self]
  cases h with
  | absent gone => rw [gone, Option.map_none, hself _ gone]
  | @rest c found stays =>
    have hway : c.stance.waypoints = [] := Movement.walk_eq_none_iff.1 stays
    have hstill : c.stance.walked = c.stance := by simp [Stance.walked, hway]
    rw [found, Option.map_some, hstill, hself _ found]
  | @step c s found goes =>
    have hway : c.stance.waypoints = s.position :: s.waypoints := Movement.walk_eq_some_iff.1 goes
    have hnext : c.stance.walked = c.stance.stepped s := by simp [Stance.walked, hway]
    rw [found, Option.map_some, hnext]
    rfl

/-- Characters that walk one after the other have all walked in the end. -/
theorem foldl_walked {ids : List CharacterId} (hids : ids.Nodup) :
    ids.foldl (fun o id ↦ { o with
      stance? := Function.update o.stance? id ((o.stance? id).map Stance.walked) }) o =
      { o with stance? := fun id ↦
          if id ∈ ids then (o.stance? id).map Stance.walked else o.stance? id } := by
  induction ids generalizing o with
  | nil => simp
  | cons first rest ih =>
    obtain ⟨hfirst, hrest⟩ := List.nodup_cons.1 hids
    rw [List.foldl_cons, ih hrest]
    congr 1
    funext id
    by_cases hid : id = first
    · subst hid
      simp [hfirst]
    · simp [hid]

theorem roamed_walked (o : Outline) : Roamed o o.walked := by
  refine ⟨rfl, rfl, rfl, rfl, rfl, ?_, ?_⟩
  · intro id
    simp [walked]
  · intro id st' r hst' hr
    obtain ⟨st, hst, rfl⟩ := Option.map_eq_some_iff.1 hst'
    refine ⟨st, hst, ?_⟩
    unfold Stance.walked at hr ⊢
    split at hr
    · exact ⟨hr, rfl⟩
    · simp only [Stance.stepped] at hr
      split at hr
      · next hplace => exact ⟨hr, hplace⟩
      · cases hr

end Outline

namespace Turn

variable {o : Outline} {id : CharacterId} {policy : Movement}

theorem step_draws (s : Step) : Draws o (step id s) fun _ o' ↦
    ∃ st, o.stance? id = some st ∧ o' = o.withStance id (st.stepped s) := by
  apply (setWaypoints_draws s.waypoints).bind
  rintro - o₁ ⟨st, hst, rfl⟩
  apply Draws.withCharacter
  intro c hc
  simp only [Outline.withStance, Function.update_self, Option.some.injEq] at hc
  have hposition : c.position = st.position := congrArg Stance.position hc.symm
  rw [hposition]
  split
  · next hmoves =>
    apply (setMining_draws .idle).bind
    rintro - o₂ ⟨st₂, hst₂, rfl⟩
    apply (setPosition_draws s.position).mono
    rintro - o₃ ⟨st₃, hst₃, rfl⟩
    simp only [Outline.withStance, Function.update_self, Option.some.injEq] at hst₂ hst₃
    subst hst₂
    subst hst₃
    refine ⟨st, hst, ?_⟩
    simp [Outline.withStance, Stance.stepped, hmoves]
  · next hstays =>
    refine Draws.pure ⟨st, hst, ?_⟩
    simp [Stance.stepped, not_not.1 hstays]

theorem walk_draws : Draws o (walk policy id) fun _ o' ↦ Outline.Strides policy o id o' := by
  apply Draws.withState
  rintro p htidy rfl
  cases found : p.state.roster.get? id with
  | none =>
    have hgone : p.outline.stance? id = none := Option.map_eq_none_iff.2 found
    exact Draws.pure (.absent hgone)
  | some c =>
    have hst : p.outline.stance? id = some c.stance := Roster.stance?_of_get? found
    rw [Option.bind_some]
    cases hpolicy : policy c with
    | none => exact Draws.pure (.rest hst hpolicy)
    | some s =>
      apply (step_draws s).mono
      rintro - o' ⟨st, hst', rfl⟩
      cases hst.symm.trans hst'
      exact .step hst hpolicy

theorem movement_draws : Draws o (movement policy) fun _ o' ↦ Outline.Roamed o o' := by
  apply Draws.withState
  rintro p - rfl
  refine Draws.forM (I := Outline.Roamed p.outline) ?_ (.refl _)
  intro id _ o ho
  apply walk_draws.mono
  intro _ o' hstride
  exact ho.trans hstride.roamed

theorem movement_walk_draws : Draws o (movement .walk) fun _ o' ↦ o' = o.walked := by
  apply Draws.withState
  rintro p - rfl
  have hids : p.state.roster.ids.Nodup :=
    p.state.roster.characters.keys_pairwise.imp fun hlt heq ↦ Nat.ne_of_lt hlt (congrArg rank heq)
  refine (Draws.foldl fun id _ o ↦ walk_draws.mono fun _ _ ↦ Outline.Strides.walk).mono ?_
  rintro - o' rfl
  rw [Outline.foldl_walked hids]
  unfold Outline.walked
  congr 1
  funext id
  split
  · rfl
  · next habsent =>
    cases hst : p.outline.stance? id with
    | none => rfl
    | some st =>
      obtain ⟨c, found, -⟩ := Option.map_eq_some_iff.1 hst
      exact absurd (Table.mem_keys_iff.2 ⟨c, found⟩) habsent

end Turn

end MiningGame
