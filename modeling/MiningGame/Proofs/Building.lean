import MiningGame.Proofs.Merging

/-!
# Building moves

A move that is built by pushing directives and removing kinds is the listing of a table: every call
writes or erases the entry of one kind, and the move lists the entries in the order of execution
(`CharacterMove.afterAll_tabulates`). Of all calls about a kind only the last one counts, so calls
about different kinds commute, a directive replaces an earlier one of its kind wherever that stands,
and removing a kind is the same as never having pushed it.
-/

namespace MiningGame

namespace Directive

/-- The kinds of directives. -/
inductive Kind where
  | waypoints | mine | pickup | drop | prospect
  deriving DecidableEq

/-- The place of a kind in the order of execution. -/
def Kind.place : Kind → Nat
  | waypoints => 0
  | mine => 1
  | pickup => 2
  | drop => 3
  | prospect => 4

instance : Ranked Kind where
  rank := Kind.place
  rank_injective {a b} h := by
    revert h
    cases a <;> cases b <;> decide

def kind : Directive → Kind
  | waypoints _ => .waypoints
  | mine => .mine
  | pickup _ => .pickup
  | drop _ => .drop
  | prospect => .prospect

theorem rank_kind (d : Directive) : MiningGame.rank d.kind = d.rank := by
  cases d <;> rfl

theorem rank_eq_iff {d e : Directive} : d.rank = e.rank ↔ d.kind = e.kind := by
  rw [← rank_kind, ← rank_kind, rank_inj]

end Directive

namespace CharacterMove

open Directive (Kind)

/-! ## Calls and the table they write -/

/-- The calls that build a move. -/
inductive Call where
  | push (d : Directive)
  /-- A directive pushed onto a move that is then handed on. -/
  | adding (d : Directive)
  | removeKind (kind : Directive)

def after (m : CharacterMove) : Call → CharacterMove
  | .push d => m.push d
  | .adding d => m.push d
  | .removeKind kind => m.removeKind kind

/-- The move that a list of calls builds from the empty one. -/
def afterAll (cs : List Call) : CharacterMove := cs.foldl after empty

/-- The kind that a call is about. -/
def Call.kind : Call → Kind
  | push d => d.kind
  | adding d => d.kind
  | removeKind kind => kind.kind

/-- The directive that a call pushes, if it does. -/
def Call.pushed? : Call → Option Directive
  | push d => some d
  | adding d => some d
  | removeKind _ => none

/-- A table of directives by kind after a call: what is pushed is written under its kind, and a kind
that is removed is erased. -/
def Call.write (t : Table Kind Directive) (c : Call) : Table Kind Directive :=
  match c.pushed? with
  | some d => t.insert d.kind d
  | none => t.erase c.kind

/-- The table that a list of calls writes. -/
def written (cs : List Call) : Table Kind Directive := cs.foldl Call.write ∅

/-- The last call about a kind. -/
def lastAbout? (cs : List Call) (k : Kind) : Option Call :=
  (cs.filter fun c ↦ c.kind = k).getLast?

variable {m : CharacterMove} {c c' : Call} {cs cs' : List Call} {d : Directive} {k k' : Kind}

theorem Call.kind_of_pushed? (h : c.pushed? = some d) : d.kind = c.kind := by
  cases c with
  | push d' =>
    cases h
    rfl
  | adding d' =>
    cases h
    rfl
  | removeKind kind => cases h

theorem Call.get?_write (t : Table Kind Directive) (c : Call) (k : Kind) :
    (write t c).get? k = if k = c.kind then c.pushed? else t.get? k := by
  unfold write
  cases hpushed : c.pushed? with
  | some d =>
    dsimp only
    rw [Table.get?_insert, kind_of_pushed? hpushed]
    simp only [rank_inj]
  | none =>
    rw [Table.get?_erase]
    simp only [rank_inj]

theorem lastAbout?_append (cs cs' : List Call) (k : Kind) :
    lastAbout? (cs ++ cs') k = (lastAbout? cs' k).or (lastAbout? cs k) := by
  rw [lastAbout?, List.filter_append, List.getLast?_append]
  rfl

theorem lastAbout?_singleton (c : Call) (k : Kind) :
    lastAbout? [c] k = if c.kind = k then some c else none := by
  unfold lastAbout?
  by_cases h : c.kind = k <;> simp [h]

theorem lastAbout?_cons (c : Call) (cs : List Call) (k : Kind) :
    lastAbout? (c :: cs) k = (lastAbout? cs k).or (if c.kind = k then some c else none) := by
  rw [← List.singleton_append, lastAbout?_append, lastAbout?_singleton]

/-- What is written under a kind was pushed by the last call about it. -/
theorem get?_written (cs : List Call) (k : Kind) :
    (written cs).get? k = (lastAbout? cs k).bind Call.pushed? := by
  induction cs using List.reverseRecOn with
  | nil => rfl
  | append_singleton cs c ih =>
    have hwrite : written (cs ++ [c]) = c.write (written cs) := List.foldl_append
    rw [hwrite, Call.get?_write, lastAbout?_append, lastAbout?_singleton, ih]
    split
    · next h => simp [h]
    · next h => simp [Ne.symm h]

theorem kind_of_get?_written (h : (written cs).get? k = some d) : d.kind = k := by
  rw [get?_written] at h
  obtain ⟨c, hlast, hpushed⟩ := Option.bind_eq_some_iff.1 h
  have hmem := List.mem_of_getLast? hlast
  rw [Call.kind_of_pushed? hpushed]
  simpa using (List.mem_filter.1 hmem).2

/-! ## The move lists the table -/

theorem mem_after (m : CharacterMove) (c : Call) (d : Directive) : d ∈ (m.after c).directives ↔
    if d.kind = c.kind then c.pushed? = some d else d ∈ m.directives := by
  have hpush (d' : Directive) : d ∈ (m.push d').directives ↔
      if d.kind = d'.kind then some d' = some d else d ∈ m.directives := by
    rw [mem_push, ne_eq, Directive.rank_eq_iff, Option.some.injEq]
    split
    · next h => simp [h, eq_comm]
    · next h => simp [h, ne_of_apply_ne Directive.kind h]
  cases c with
  | push d' => exact hpush d'
  | adding d' => exact hpush d'
  | removeKind kind =>
    change d ∈ (m.removeKind kind).directives ↔
      if d.kind = kind.kind then none = some d else d ∈ m.directives
    rw [mem_removeKind, ne_eq, Directive.rank_eq_iff]
    split
    · next h => simp [h]
    · next h => simp [h]

theorem Canonical.after (h : m.Canonical) (c : Call) : (m.after c).Canonical := by
  cases c with
  | push d => exact h.push d
  | adding d => exact h.push d
  | removeKind kind => exact h.removeKind kind

theorem canonical_afterAll (cs : List Call) : (afterAll cs).Canonical :=
  List.foldlRecOn cs CharacterMove.after canonical_empty fun _ h c _ ↦ h.after c

theorem mem_afterAll : d ∈ (afterAll cs).directives ↔ (written cs).get? d.kind = some d := by
  induction cs using List.reverseRecOn with
  | nil => exact ⟨nofun, nofun⟩
  | append_singleton cs c ih =>
    have hafter : afterAll (cs ++ [c]) = (afterAll cs).after c := List.foldl_append
    have hwrite : written (cs ++ [c]) = c.write (written cs) := List.foldl_append
    rw [hafter, hwrite, mem_after, Call.get?_write, ih]
    split <;> rfl

theorem mem_values_written : d ∈ (written cs).values ↔ (written cs).get? d.kind = some d := by
  simp only [Table.values, List.mem_map, Table.get?_eq_some_iff]
  constructor
  · rintro ⟨⟨k, d⟩, hmem, rfl⟩
    rwa [kind_of_get?_written (Table.get?_eq_some_iff.2 hmem)]
  · exact fun hmem ↦ ⟨_, hmem, rfl⟩

theorem ordered_values_written (cs : List Call) : Ordered (written cs).values := by
  refine List.pairwise_map.2 ((written cs).ascending.imp_of_mem fun {a b} ha hb hlt ↦ ?_)
  rw [← Directive.rank_kind, ← Directive.rank_kind,
    kind_of_get?_written (Table.get?_eq_some_iff.2 ha),
    kind_of_get?_written (Table.get?_eq_some_iff.2 hb)]
  exact hlt

theorem afterAll_eq (cs : List Call) : afterAll cs = ⟨(written cs).values⟩ :=
  (canonical_afterAll cs).ext (ordered_values_written cs) fun _ ↦
    mem_afterAll.trans mem_values_written.symm

/-- Calls that end alike for each kind build the same move. -/
theorem afterAll_congr
    (h : ∀ k, (lastAbout? cs k).bind Call.pushed? = (lastAbout? cs' k).bind Call.pushed?) :
    afterAll cs = afterAll cs' := by
  have hwritten : written cs = written cs' := Table.ext_get? fun k ↦ by
    rw [get?_written, get?_written, h]
  rw [afterAll_eq, afterAll_eq, hwritten]

theorem afterAll_of_lastAbout? (h : ∀ k, lastAbout? cs k = lastAbout? cs' k) :
    afterAll cs = afterAll cs' :=
  afterAll_congr fun k ↦ by rw [h]

/-! ## Which calls count -/

theorem afterAll_swap (cs : List Call) (rest : List Call) (h : c.kind ≠ c'.kind) :
    afterAll (cs ++ c :: c' :: rest) = afterAll (cs ++ c' :: c :: rest) := by
  refine afterAll_of_lastAbout? fun k ↦ ?_
  simp only [lastAbout?_append, lastAbout?_cons, Option.or_assoc]
  by_cases hc : c.kind = k
  · have hc' : c'.kind ≠ k := fun heq ↦ h (hc.trans heq.symm)
    simp [hc, hc']
  · simp [hc]

theorem afterAll_overwritten (cs between rest : List Call) (h : c.kind = c'.kind) :
    afterAll (cs ++ c :: (between ++ c' :: rest)) = afterAll (cs ++ (between ++ c' :: rest)) := by
  refine afterAll_of_lastAbout? fun k ↦ ?_
  simp only [lastAbout?_append, lastAbout?_cons, Option.or_assoc]
  by_cases hc : c.kind = k
  · simp [hc, h ▸ hc]
  · simp [hc]

/-- The calls of a list without the pushes of a kind. -/
def unpushed (cs : List Call) (k : Kind) : List Call :=
  cs.filter fun c ↦ c.pushed?.isNone || c.kind ≠ k

theorem lastAbout?_unpushed (h : k ≠ k') : lastAbout? (unpushed cs k') k = lastAbout? cs k := by
  unfold lastAbout? unpushed
  rw [List.filter_filter]
  congr 1
  refine List.filter_congr fun c _ ↦ ?_
  by_cases hc : c.kind = k <;> simp [hc, h]

theorem bind_lastAbout?_unpushed (cs : List Call) (k : Kind) :
    (lastAbout? (unpushed cs k) k).bind Call.pushed? = none := by
  refine Option.bind_eq_none_iff.2 fun c hlast ↦ ?_
  have hmem := List.mem_of_getLast? hlast
  simp only [unpushed, List.mem_filter, decide_eq_true_eq] at hmem
  obtain ⟨⟨-, hkept⟩, habout⟩ := hmem
  simpa [habout] using hkept

theorem afterAll_removed (cs rest : List Call) (kind : Directive) :
    afterAll (cs ++ .removeKind kind :: rest) = afterAll (unpushed cs kind.kind ++ rest) := by
  refine afterAll_congr fun k ↦ ?_
  rw [lastAbout?_append, lastAbout?_append, lastAbout?_cons]
  cases lastAbout? rest k with
  | some c => rfl
  | none =>
    by_cases h : k = kind.kind
    · subst h
      simp only [Option.none_or]
      rw [bind_lastAbout?_unpushed, Call.kind, if_pos rfl]
      rfl
    · rw [lastAbout?_unpushed h, Call.kind, if_neg (Ne.symm h), Option.or_none]

/-- A list of calls builds the listing of the table that it writes, and of its calls about a kind
only the last one counts. -/
structure Tabulates (cs : List Call) : Prop where
  ascending : Ordered (afterAll cs).directives
  lists : (afterAll cs).directives = (written cs).values
  commutes : ∀ c c' rest, c.kind ≠ c'.kind →
    afterAll (cs ++ c :: c' :: rest) = afterAll (cs ++ c' :: c :: rest)
  overwrites : ∀ c between c' rest, c.kind = c'.kind →
    afterAll (cs ++ c :: (between ++ c' :: rest)) = afterAll (cs ++ (between ++ c' :: rest))
  /-- The pushes of a kind that is removed might as well not have happened. -/
  undoes : ∀ kind rest, afterAll (cs ++ .removeKind kind :: rest) =
    afterAll (unpushed cs kind.kind ++ rest)

/-- Whatever calls build a move, it lists one directive of each kind that was last pushed and not
removed, in the order of execution. -/
theorem afterAll_tabulates (cs : List Call) : Tabulates cs where
  ascending := canonical_afterAll cs
  lists := by rw [afterAll_eq]
  commutes _ _ := afterAll_swap cs
  overwrites _ between _ rest := afterAll_overwritten cs between rest
  undoes kind rest := afterAll_removed cs rest kind

example : afterAll [.push .mine, .push (.drop ∅), .adding (.waypoints []), .removeKind .mine] =
    ⟨[.waypoints [], .drop ∅]⟩ := by decide

end CharacterMove

end MiningGame
