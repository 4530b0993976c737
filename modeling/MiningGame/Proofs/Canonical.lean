import MiningGame.Move.Basic

/-!
# Canonical moves

A move is canonical if its directives stand in the order of execution, at most one of each kind.
Merged moves are canonical whatever moves they are merged from. What a block carries out of a
canonical move is therefore at most one of a way, mining and prospecting, together with directives
that only carry units: a way and mining come before them, prospecting comes after them.
-/

namespace MiningGame

namespace Directive

/-- The directive only moves units between a character and the ground. -/
def Carries (d : Directive) : Prop := ∃ items, d = pickup items ∨ d = drop items

variable {d : Directive}

theorem rank_le_four (d : Directive) : d.rank ≤ 4 := by
  cases d <;> simp [rank]

theorem carries_of_ne (hway : d.rank ≠ 0) (hmine : d ≠ mine) (hprospect : d ≠ prospect) :
    d.Carries := by
  cases d with
  | pickup items => exact ⟨items, .inl rfl⟩
  | drop items => exact ⟨items, .inr rfl⟩
  | waypoints places => exact absurd rfl hway
  | mine => exact absurd rfl hmine
  | prospect => exact absurd rfl hprospect

end Directive

namespace CharacterMove

/-- The order of execution, with no two directives of one kind. -/
abbrev Ordered (ds : List Directive) : Prop := ds.Pairwise fun d e ↦ d.rank < e.rank

def Canonical (m : CharacterMove) : Prop := Ordered m.directives

variable {m : CharacterMove} {d e : Directive} {ds : List Directive}

/-! ### Merged moves are canonical -/

@[simp] theorem mem_place : e ∈ place d ds ↔ e = d ∨ e ∈ ds := by
  induction ds with
  | nil => simp [place]
  | cons d' rest ih =>
    rw [place]
    split
    · simp
    · simp only [List.mem_cons, ih]
      exact or_left_comm

theorem ordered_place (h : Ordered ds) (hd : ∀ e ∈ ds, e.rank ≠ d.rank) :
    Ordered (place d ds) := by
  induction ds with
  | nil => exact List.pairwise_singleton _ _
  | cons d' rest ih =>
    obtain ⟨hhead, hrest⟩ := List.pairwise_cons.1 h
    rw [place]
    split
    · next hlt =>
      refine List.pairwise_cons.2 ⟨fun e he ↦ ?_, h⟩
      rcases List.mem_cons.1 he with rfl | he
      · exact hlt
      · exact Nat.lt_trans hlt (hhead e he)
    · next hge =>
      have hne := hd d' List.mem_cons_self
      refine List.pairwise_cons.2 ⟨fun e he ↦ ?_, ih hrest fun e he ↦ hd e (by simp [he])⟩
      rcases mem_place.1 he with rfl | he
      · omega
      · exact hhead e he

@[simp] theorem mem_removeKind {kind : Directive} :
    d ∈ (m.removeKind kind).directives ↔ d ∈ m.directives ∧ d.rank ≠ kind.rank := by
  simp [removeKind]

theorem canonical_empty : empty.Canonical := List.Pairwise.nil

theorem Canonical.removeKind (h : m.Canonical) (kind : Directive) :
    (m.removeKind kind).Canonical :=
  List.Pairwise.filter _ h

theorem Canonical.push (h : m.Canonical) (d : Directive) : (m.push d).Canonical :=
  ordered_place (h.removeKind d) fun _ he ↦ (mem_removeKind.1 he).2

theorem Canonical.pushAll (h : m.Canonical) (ds : List Directive) : (m.pushAll ds).Canonical := by
  induction ds generalizing m with
  | nil => exact h
  | cons d rest ih => exact ih (h.push d)

theorem merge_canonical {moves : List (CharacterId × CharacterMove)} {id : CharacterId}
    (h : (merge moves).get? id = some m) : m.Canonical := by
  have hfold : ∀ merged : Table CharacterId CharacterMove,
      (∀ id m, merged.get? id = some m → m.Canonical) →
      ∀ id m, (moves.foldl (fun merged e ↦ merged.insert e.1
        (((merged.get? e.1).getD empty).pushAll e.2.directives)) merged).get? id = some m →
        m.Canonical := by
    clear h
    induction moves with
    | nil => exact fun _ hmerged ↦ hmerged
    | cons e rest ih =>
      intro merged hmerged
      refine ih _ fun id m hget ↦ ?_
      rw [Table.get?_insert] at hget
      split at hget
      · cases hget
        cases hold : merged.get? e.1 with
        | none => exact canonical_empty.pushAll _
        | some old => exact (hmerged e.1 old hold).pushAll _
      · exact hmerged id m hget
  exact hfold ∅ (fun _ _ hget ↦ nomatch hget) id m h

/-! ### What a move asks for -/

theorem mem_of_waypoints? {places : List Coord} (h : m.waypoints? = some places) :
    .waypoints places ∈ m.directives := by
  obtain ⟨d, hd, hplaces⟩ := List.exists_of_findSome?_eq_some h
  cases d with
  | waypoints places' =>
    obtain rfl := Option.some.inj hplaces
    exact hd
  | _ => cases hplaces

theorem waypoints?_eq_none_iff :
    m.waypoints? = none ↔ ∀ d ∈ m.directives, d.rank ≠ 0 := by
  unfold waypoints?
  rw [List.findSome?_eq_none_iff]
  refine forall₂_congr fun d _ ↦ ?_
  cases d <;> simp [Directive.rank]

@[simp] theorem mines_eq_true_iff : m.mines = true ↔ .mine ∈ m.directives := by
  simp [mines]

@[simp] theorem prospects_eq_true_iff : m.prospects = true ↔ .prospect ∈ m.directives := by
  simp [prospects]

theorem waypoints?_removeKind_mine : (m.removeKind .mine).waypoints? = none ↔
    m.waypoints? = none := by
  simp only [waypoints?_eq_none_iff, mem_removeKind]
  refine forall_congr' fun d ↦ ⟨fun h hd hzero ↦ ?_, fun h hd ↦ h hd.1⟩
  exact h ⟨hd, by rw [hzero]; decide⟩ hzero

/-! ### What a block carries out -/

/-- Of the directives of a move, a block leaves out mining beside a way, and prospecting beside
either of the two. -/
theorem mem_resolve : d ∈ m.resolve.directives ↔ d ∈ m.directives ∧
    (d = .mine → m.waypoints? = none) ∧
    (d = .prospect → m.waypoints? = none ∧ .mine ∉ m.directives) := by
  have hway : (m.removeKind .mine).waypoints?.isSome = m.waypoints?.isSome := by
    rw [Bool.eq_iff_iff, Option.isSome_iff_ne_none, Option.isSome_iff_ne_none, ne_eq, ne_eq,
      waypoints?_removeKind_mine]
  unfold resolve
  cases hw : m.waypoints? with
  | none =>
    rw [hw] at hway
    by_cases hm : .mine ∈ m.directives <;> by_cases hp : .prospect ∈ m.directives <;>
      simp [hm, hp, hw, Directive.rank] <;> grind
  | some places =>
    rw [hw] at hway
    by_cases hm : .mine ∈ m.directives <;> by_cases hp : .prospect ∈ m.directives <;>
      simp [hm, hp, hw, hway, Directive.rank] <;> grind

theorem Canonical.resolve (h : m.Canonical) : m.resolve.Canonical := by
  have hfirst : (if m.waypoints?.isSome && m.mines then m.removeKind .mine else m).Canonical := by
    split
    · exact h.removeKind _
    · exact h
  unfold CharacterMove.resolve
  dsimp only
  generalize (if m.waypoints?.isSome && m.mines then m.removeKind .mine else m) = m' at hfirst ⊢
  split
  · exact hfirst.removeKind _
  · exact hfirst

theorem exists_cons_of_least (h : Ordered ds) (hd : d ∈ ds) (hle : ∀ e ∈ ds, d.rank ≤ e.rank) :
    ∃ rest, ds = d :: rest ∧ ∀ e ∈ rest, d.rank < e.rank := by
  obtain ⟨before, rest, rfl⟩ := List.append_of_mem hd
  obtain ⟨-, hcons, hcross⟩ := List.pairwise_append.1 h
  have hnil : before = [] := List.eq_nil_iff_forall_not_mem.2 fun e he ↦ by
    have hlt := hcross e he d (by simp)
    have hge := hle e (by simp [he])
    omega
  subst hnil
  exact ⟨rest, rfl, (List.pairwise_cons.1 hcons).1⟩

theorem exists_concat_of_greatest (h : Ordered ds) (hd : d ∈ ds)
    (hle : ∀ e ∈ ds, e.rank ≤ d.rank) :
    ∃ before, ds = before ++ [d] ∧ ∀ e ∈ before, e.rank < d.rank := by
  obtain ⟨before, rest, rfl⟩ := List.append_of_mem hd
  obtain ⟨-, hcons, hcross⟩ := List.pairwise_append.1 h
  have hnil : rest = [] := List.eq_nil_iff_forall_not_mem.2 fun e he ↦ by
    have hlt := (List.pairwise_cons.1 hcons).1 e he
    have hge := hle e (by simp [he])
    omega
  subst hnil
  exact ⟨before, rfl, fun e he ↦ hcross e he d (by simp)⟩

theorem resolve_rank_ne_zero (hway : m.waypoints? = none) (hd : d ∈ m.resolve.directives) :
    d.rank ≠ 0 :=
  waypoints?_eq_none_iff.1 hway d (mem_resolve.1 hd).1

/-- A way comes first, and beside it units are only carried. -/
theorem Canonical.resolve_of_waypoints {places : List Coord} (h : m.Canonical)
    (hway : m.waypoints? = some places) :
    ∃ rest, m.resolve.directives = .waypoints places :: rest ∧ ∀ e ∈ rest, e.Carries := by
  have hd : .waypoints places ∈ m.resolve.directives :=
    mem_resolve.2 ⟨mem_of_waypoints? hway, nofun, nofun⟩
  obtain ⟨rest, hrest, hlt⟩ := exists_cons_of_least h.resolve hd fun _ _ ↦ Nat.zero_le _
  refine ⟨rest, hrest, fun e he ↦ ?_⟩
  obtain ⟨-, hmine, hprospect⟩ := mem_resolve.1 (hrest ▸ List.mem_cons_of_mem _ he)
  rw [hway] at hmine hprospect
  exact Directive.carries_of_ne (Nat.ne_of_gt (hlt e he)) (fun heq ↦ nomatch hmine heq)
    fun heq ↦ nomatch (hprospect heq).1

/-- Without a way mining comes first, and beside it units are only carried. -/
theorem Canonical.resolve_of_mines (h : m.Canonical) (hway : m.waypoints? = none)
    (hmines : m.mines = true) :
    ∃ rest, m.resolve.directives = .mine :: rest ∧ ∀ e ∈ rest, e.Carries := by
  have hmem : .mine ∈ m.directives := mines_eq_true_iff.1 hmines
  have hd : .mine ∈ m.resolve.directives := mem_resolve.2 ⟨hmem, fun _ ↦ hway, nofun⟩
  obtain ⟨rest, hrest, hlt⟩ := exists_cons_of_least h.resolve hd fun e he ↦
    Nat.one_le_iff_ne_zero.2 (resolve_rank_ne_zero hway he)
  refine ⟨rest, hrest, fun e he ↦ ?_⟩
  have hin : e ∈ m.resolve.directives := hrest ▸ List.mem_cons_of_mem _ he
  have hprospect := (mem_resolve.1 hin).2.2
  refine Directive.carries_of_ne (resolve_rank_ne_zero hway hin) ?_ fun heq ↦
    (hprospect heq).2 hmem
  rintro rfl
  exact Nat.lt_irrefl _ (hlt _ he)

/-- Without a way or mining prospecting comes last, and beside it units are only carried. -/
theorem Canonical.resolve_of_prospects (h : m.Canonical) (hway : m.waypoints? = none)
    (hmines : m.mines = false) (hprospects : m.prospects = true) :
    ∃ before, m.resolve.directives = before ++ [.prospect] ∧ ∀ e ∈ before, e.Carries := by
  have hmem : .mine ∉ m.directives := by simpa using mt mines_eq_true_iff.2 (by simp [hmines])
  have hd : .prospect ∈ m.resolve.directives :=
    mem_resolve.2 ⟨prospects_eq_true_iff.1 hprospects, nofun, fun _ ↦ ⟨hway, hmem⟩⟩
  obtain ⟨before, hbefore, hlt⟩ := exists_concat_of_greatest h.resolve hd fun e _ ↦ e.rank_le_four
  refine ⟨before, hbefore, fun e he ↦ ?_⟩
  have hin : e ∈ m.resolve.directives := hbefore ▸ List.mem_append_left _ he
  refine Directive.carries_of_ne (resolve_rank_ne_zero hway hin) ?_ ?_
  · rintro rfl
    exact hmem (mem_resolve.1 hin).1
  · rintro rfl
    exact Nat.lt_irrefl _ (hlt _ he)

/-- A move with none of the three only carries units. -/
theorem resolve_of_neither (hway : m.waypoints? = none) (hmines : m.mines = false)
    (hprospects : m.prospects = false) (hd : d ∈ m.resolve.directives) : d.Carries := by
  have hmem := (mem_resolve.1 hd).1
  refine Directive.carries_of_ne (resolve_rank_ne_zero hway hd) ?_ ?_
  · rintro rfl
    simp [mines_eq_true_iff.2 hmem] at hmines
  · rintro rfl
    simp [prospects_eq_true_iff.2 hmem] at hprospects

end CharacterMove

end MiningGame
