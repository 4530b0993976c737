import Mathlib.Data.List.Induction
import MiningGame.Proofs.Contract
import MiningGame.Proofs.Retention

/-!
# The journal as a stack

Under any calls the journal behaves as a stack of undo records with ascending heights: records are
put on top, only the top one can be undone, and dropping takes records away at the bottom
(`UndoJournal.Step`). What is undone with a record is what was recorded with it, newest delta first
(`Unwinds`). Hence the calls that put records on the stack and those that undo them are matched like
brackets.
-/

namespace MiningGame

/-! ## Reverting newest first -/

section Unwinding

variable {σ : Type} {revert : Reverter σ} {height : UInt64}

/-- Deltas are reverted one after the other, up to the first that is rejected. -/
inductive Unwinds (revert : Reverter σ) (height : UInt64) :
    List UndoDelta → σ → EStateM.Result JournalError σ Unit → Prop
  | done (target : σ) : Unwinds revert height [] target (.ok () target)
  | accepted {δ : UndoDelta} {δs : List UndoDelta} {target target' : σ}
      {result : EStateM.Result JournalError σ Unit} (first : revert height δ target = .ok () target')
      (rest : Unwinds revert height δs target' result) :
      Unwinds revert height (δ :: δs) target result
  | rejected {δ : UndoDelta} {δs : List UndoDelta} {target target' : σ} {e : JournalError}
      (first : revert height δ target = .error e target') :
      Unwinds revert height (δ :: δs) target (.error e target')

theorem Unwinds.forM_eq {δs : List UndoDelta} {target : σ}
    {result : EStateM.Result JournalError σ Unit} (h : Unwinds revert height δs target result) :
    δs.forM (revert height) target = result := by
  induction h with
  | done => rfl
  | accepted first _ ih => exact (bind_of_ok first).trans ih
  | rejected first => exact bind_of_error first

theorem unwinds_forM (revert : Reverter σ) (height : UInt64) (δs : List UndoDelta) (target : σ) :
    Unwinds revert height δs target (δs.forM (revert height) target) := by
  induction δs generalizing target with
  | nil => exact .done target
  | cons δ δs ih =>
    cases hfirst : revert height δ target with
    | ok _ target' =>
      have hforM : (δ :: δs).forM (revert height) target = δs.forM (revert height) target' :=
        bind_of_ok hfirst
      exact hforM ▸ .accepted hfirst (ih target')
    | error e target' =>
      have hforM : (δ :: δs).forM (revert height) target = .error e target' :=
        bind_of_error hfirst
      exact hforM ▸ .rejected hfirst

end Unwinding

namespace UndoJournal

/-! ## Calls -/

/-- A call of the journal; every call to undo brings its own target. -/
inductive Call (σ : Type) where
  | record (undo : BlockUndo)
  | undo (height : UInt64) (revert : Reverter σ) (target : σ)
  | prune (below : UInt64)

/-- What a call answers; a target comes back also when it has rejected a delta. -/
inductive Answer (σ : Type) where
  | recorded (result : Except JournalError Unit)
  | undone (result : EStateM.Result JournalError σ Unit)
  | pruned (count : Nat)

variable {σ : Type} {j : UndoJournal} {height : UInt64} {revert : Reverter σ} {target : σ}

/-- What a call answers, and the journal after it. -/
def perform (j : UndoJournal) : Call σ → Answer σ × UndoJournal
  | .record undo =>
    match j.record undo with
    | .ok j' => (.recorded (.ok ()), j')
    | .error e => (.recorded (.error e), j)
  | .undo height revert target =>
    match UndoJournal.undo revert height (j, target) with
    | .ok _ (j', target') => (.undone (.ok () target'), j')
    | .error e (j', target') => (.undone (.error e target'), j')
  | .prune below => (.pruned (j.prune below).1, (j.prune below).2)

def afterAll (calls : List (Call σ)) : UndoJournal :=
  calls.foldl (fun j c ↦ (j.perform c).2) empty

theorem perform_record_of_ok {undo : BlockUndo} {j' : UndoJournal} (h : j.record undo = .ok j') :
    j.perform (.record undo : Call σ) = (.recorded (.ok ()), j') := by
  rw [perform, h]

theorem perform_record_of_error {undo : BlockUndo} {e : JournalError} (h : j.record undo = .error e) :
    j.perform (.record undo : Call σ) = (.recorded (.error e), j) := by
  rw [perform, h]

theorem perform_undo_of_ok {undo : BlockUndo} {j' : UndoJournal}
    (h : j.take height = .ok (undo, j')) :
    j.perform (.undo height revert target) = (.undone (undo.revertOn revert target), j') := by
  simp only [perform, UndoJournal.undo, h]
  cases undo.revertOn revert target <;> rfl

theorem perform_undo_of_error {e : JournalError} (h : j.take height = .error e) :
    j.perform (.undo height revert target) = (.undone (.error e target), j) := by
  simp only [perform, UndoJournal.undo, h]

/-- One call on a stack of records, lowest first, with its answer and the stack after it. -/
inductive Step : List BlockUndo → Call σ → Answer σ → List BlockUndo → Prop
  | above {stack : List BlockUndo} {undo : BlockUndo}
      (newest : ∀ last ∈ stack.getLast?, last.height < undo.height) :
      Step stack (.record undo) (.recorded (.ok ())) (stack ++ [undo])
  | present {stack : List BlockUndo} {undo old : BlockUndo} (found : old ∈ stack)
      (same : old.height = undo.height) :
      Step stack (.record undo) (.recorded (.error (.duplicateHeight undo.height))) stack
  | below {stack : List BlockUndo} {undo last : BlockUndo} (newest : stack.getLast? = some last)
      (older : undo.height < last.height) (absent : ∀ old ∈ stack, old.height ≠ undo.height) :
      Step stack (.record undo) (.recorded (.error (.outOfOrder undo.height last.height))) stack
  | top {stack : List BlockUndo} {undo : BlockUndo} {revert : Reverter σ} {target : σ}
      {result : EStateM.Result JournalError σ Unit}
      (back : Unwinds revert undo.height undo.deltas.reverse target result) :
      Step (stack ++ [undo]) (.undo undo.height revert target) (.undone result) stack
  | bare (height : UInt64) (revert : Reverter σ) (target : σ) :
      Step [] (.undo height revert target)
        (.undone (.error (.undoInconsistency height "journal is empty") target)) []
  | other {stack : List BlockUndo} {last : BlockUndo} {height : UInt64} {revert : Reverter σ}
      {target : σ} (newest : stack.getLast? = some last) (different : last.height ≠ height) :
      Step stack (.undo height revert target)
        (.undone (.error (.undoInconsistency height
          ("newest journaled height is " ++ Word.text last.height)) target)) stack
  | prune {low high : List BlockUndo} {below : UInt64} (older : ∀ undo ∈ low, undo.height < below)
      (kept : ∀ undo ∈ high, below ≤ undo.height) :
      Step (low ++ high) (.prune below) (.pruned low.length) high

/-! ## The records of a journal -/

/-- The journal holds the records of a stack under their heights, and nothing else. -/
def Holds (j : UndoJournal) (stack : List BlockUndo) : Prop :=
  j.blocks.entries = stack.map fun undo ↦ (undo.height, undo)

variable {stack stack' low high : List BlockUndo} {undo : BlockUndo}
  {c : Call σ} {a : Answer σ}

namespace Holds

theorem values_eq (h : j.Holds stack) : j.blocks.values = stack := by
  rw [Table.values, h, List.map_map]
  exact List.map_id stack

theorem keys_eq (h : j.Holds stack) : j.blocks.keys = stack.map BlockUndo.height := by
  rw [Table.keys, h, List.map_map]
  rfl

theorem ascending (h : j.Holds stack) : stack.Pairwise fun u v ↦ u.height < v.height := by
  have hkeys := j.blocks.keys_pairwise
  rw [h.keys_eq, List.pairwise_map] at hkeys
  exact hkeys.imp UInt64.lt_iff_toNat_lt.2

theorem latest?_eq (h : j.Holds stack) : j.latest? = stack.getLast?.map BlockUndo.height := by
  rw [latest?, Table.lastKey?, h.keys_eq, List.getLast?_map]

theorem get?_height (h : j.Holds stack) (hundo : undo ∈ stack) :
    j.blocks.get? undo.height = some undo := by
  rw [Table.get?_eq_some_iff, h]
  exact List.mem_map_of_mem hundo

theorem contains_eq_false (h : j.Holds stack) {height : UInt64}
    (habsent : ∀ old ∈ stack, old.height ≠ height) : j.blocks.contains height = false := by
  rw [Table.contains, Option.isSome_eq_false_iff, Option.isNone_iff_eq_none]
  refine Option.eq_none_iff_forall_ne_some.2 fun old hold ↦ ?_
  have hkey := Table.mem_keys_iff.2 ⟨old, hold⟩
  rw [h.keys_eq] at hkey
  obtain ⟨old', hmem, hheight⟩ := List.mem_map.1 hkey
  exact habsent old' hmem hheight

theorem contains_height (h : j.Holds stack) (hundo : undo ∈ stack) :
    j.blocks.contains undo.height = true := by
  rw [Table.contains, h.get?_height hundo]
  rfl

theorem push (h : j.Holds stack) (hnewest : ∀ old ∈ stack, old.height < undo.height) :
    Holds ⟨j.blocks.insert undo.height undo⟩ (stack ++ [undo]) := by
  have habove : ∀ e ∈ j.blocks.entries, rank e.1 < rank undo.height := by
    intro e he
    rw [h] at he
    obtain ⟨old, hold, rfl⟩ := List.mem_map.1 he
    exact UInt64.lt_iff_toNat_lt.1 (hnewest old hold)
  change Table.put undo.height undo j.blocks.entries = _
  rw [Table.put_of_above habove, h, List.map_append]
  rfl

theorem height_lt (h : j.Holds (stack ++ [undo])) {old : BlockUndo} (hold : old ∈ stack) :
    old.height < undo.height :=
  (List.pairwise_append.1 h.ascending).2.2 old hold undo (List.mem_singleton_self undo)

theorem pop (h : j.Holds (stack ++ [undo])) : Holds ⟨j.blocks.erase undo.height⟩ stack := by
  change j.blocks.entries.filter (fun e ↦ rank e.1 != rank undo.height) = _
  have hstay : ∀ e ∈ stack.map fun u ↦ (u.height, u),
      (rank e.1 != rank undo.height) = true := by
    intro e he
    obtain ⟨old, hold, rfl⟩ := List.mem_map.1 he
    exact bne_iff_ne.2 (Nat.ne_of_lt (UInt64.lt_iff_toNat_lt.1 (h.height_lt hold)))
  rw [h, List.map_append, List.filter_append, List.filter_eq_self.2 hstay]
  simp

theorem pruned (h : j.Holds (low ++ high)) {below : UInt64}
    (hlow : ∀ u ∈ low, u.height < below) (hhigh : ∀ u ∈ high, below ≤ u.height) :
    (j.prune below).1 = low.length ∧ (j.prune below).2.Holds high := by
  have hkept : j.blocks.entries.filter (fun e ↦ below ≤ e.1) = high.map fun u ↦ (u.height, u) := by
    rw [h, List.map_append, List.filter_append, List.filter_eq_nil_iff.2, List.nil_append,
      List.filter_eq_self.2]
    · intro e he
      obtain ⟨u, hu, rfl⟩ := List.mem_map.1 he
      exact decide_eq_true (hhigh u hu)
    · intro e he
      obtain ⟨u, hu, rfl⟩ := List.mem_map.1 he
      simpa using hlow u hu
  refine ⟨?_, hkept⟩
  change j.blocks.entries.length - (j.blocks.entries.filter _).length = _
  rw [hkept, h, List.length_map, List.length_map, List.length_append, Nat.add_sub_cancel]

end Holds

/-! ## One call -/

theorem lt_of_getLast?_lt (hascending : stack.Pairwise fun u v ↦ u.height < v.height)
    (hnewest : ∀ last ∈ stack.getLast?, last.height < undo.height) :
    ∀ old ∈ stack, old.height < undo.height := by
  cases hlast : stack.getLast? with
  | none =>
    rw [List.getLast?_eq_none_iff.1 hlast]
    exact List.forall_mem_nil _
  | some last =>
    have htop : last.height < undo.height := hnewest last hlast
    obtain ⟨rest, rfl⟩ := List.getLast?_eq_some_iff.1 hlast
    intro old hold
    rcases List.mem_append.1 hold with hrest | hself
    · have hlt := (List.pairwise_append.1 hascending).2.2 old hrest last
        (List.mem_singleton_self last)
      exact UInt64.lt_trans hlt htop
    · exact List.mem_singleton.1 hself ▸ htop

namespace Holds

theorem record_above (h : j.Holds stack)
    (hnewest : ∀ last ∈ stack.getLast?, last.height < undo.height) :
    j.record undo = .ok ⟨j.blocks.insert undo.height undo⟩ := by
  refine record_eq_ok fun k hk ↦ ?_
  rw [h.keys_eq] at hk
  obtain ⟨old, hold, rfl⟩ := List.mem_map.1 hk
  exact UInt64.lt_iff_toNat_lt.1 (lt_of_getLast?_lt h.ascending hnewest old hold)

theorem record_present (h : j.Holds stack) {old : BlockUndo} (hold : old ∈ stack)
    (hsame : old.height = undo.height) :
    j.record undo = .error (.duplicateHeight undo.height) := by
  have hcontains : j.blocks.contains undo.height = true := hsame ▸ h.contains_height hold
  rw [record, if_pos hcontains]

theorem record_below (h : j.Holds stack) {last : BlockUndo} (hlast : stack.getLast? = some last)
    (holder : undo.height < last.height) (habsent : ∀ old ∈ stack, old.height ≠ undo.height) :
    j.record undo = .error (.outOfOrder undo.height last.height) := by
  have hcontains := h.contains_eq_false habsent
  have hlatest : j.latest? = some last.height := by rw [h.latest?_eq, hlast, Option.map_some]
  simp only [record, hcontains, hlatest, if_pos holder, Bool.false_eq_true, if_false]

theorem take_top (h : j.Holds (stack ++ [undo])) :
    j.take undo.height = .ok (undo, ⟨j.blocks.erase undo.height⟩) := by
  have htop : undo ∈ stack ++ [undo] := List.mem_append_right _ (List.mem_singleton_self undo)
  refine take_eq_ok (h.get?_height htop) fun k hk ↦ ?_
  rw [h.keys_eq, List.map_append] at hk
  rcases List.mem_append.1 hk with hrest | hself
  · obtain ⟨old, hold, rfl⟩ := List.mem_map.1 hrest
    exact Nat.le_of_lt (UInt64.lt_iff_toNat_lt.1 (h.height_lt hold))
  · exact Nat.le_of_eq (congrArg UInt64.toNat (List.mem_singleton.1 hself))

theorem take_bare (h : j.Holds []) (height : UInt64) :
    j.take height = .error (.undoInconsistency height "journal is empty") := by
  have hlatest : j.latest? = none := h.latest?_eq
  rw [take, hlatest]

theorem take_other (h : j.Holds stack) {last : BlockUndo} (hlast : stack.getLast? = some last)
    (hdifferent : last.height ≠ height) :
    j.take height = .error (.undoInconsistency height
      ("newest journaled height is " ++ Word.text last.height)) := by
  have hlatest : j.latest? = some last.height := by rw [h.latest?_eq, hlast, Option.map_some]
  simp only [take, hlatest, if_pos hdifferent]

/-- A journal that holds a stack does what the stack does. -/
theorem perform (h : j.Holds stack) (hstep : Step stack c a stack') :
    (j.perform c).1 = a ∧ (j.perform c).2.Holds stack' := by
  cases hstep with
  | above newest =>
    rw [perform_record_of_ok (h.record_above newest)]
    exact ⟨rfl, h.push (lt_of_getLast?_lt h.ascending newest)⟩
  | present found same =>
    rw [perform_record_of_error (h.record_present found same)]
    exact ⟨rfl, h⟩
  | below newest older absent =>
    rw [perform_record_of_error (h.record_below newest older absent)]
    exact ⟨rfl, h⟩
  | top back =>
    rw [perform_undo_of_ok h.take_top]
    exact ⟨congrArg Answer.undone back.forM_eq, h.pop⟩
  | bare height =>
    rw [perform_undo_of_error (h.take_bare height)]
    exact ⟨rfl, h⟩
  | other newest different =>
    rw [perform_undo_of_error (h.take_other newest different)]
    exact ⟨rfl, h⟩
  | prune older kept =>
    obtain ⟨hcount, hheld⟩ := h.pruned older kept
    exact ⟨congrArg Answer.pruned hcount, hheld⟩

end Holds

/-- A stack can be split at any height. -/
theorem exists_split (hascending : stack.Pairwise fun u v ↦ u.height < v.height) (below : UInt64) :
    ∃ low high, stack = low ++ high ∧ (∀ u ∈ low, u.height < below) ∧
      ∀ u ∈ high, below ≤ u.height := by
  induction stack with
  | nil => exact ⟨[], [], rfl, List.forall_mem_nil _, List.forall_mem_nil _⟩
  | cons first rest ih =>
    obtain ⟨hfirst, hrest⟩ := List.pairwise_cons.1 hascending
    by_cases hlt : first.height < below
    · obtain ⟨low, high, rfl, hlow, hhigh⟩ := ih hrest
      exact ⟨first :: low, high, rfl, List.forall_mem_cons.2 ⟨hlt, hlow⟩, hhigh⟩
    · have hle : below ≤ first.height := UInt64.not_lt.1 hlt
      refine ⟨[], first :: rest, rfl, List.forall_mem_nil _, List.forall_mem_cons.2 ⟨hle, ?_⟩⟩
      exact fun u hu ↦ UInt64.le_trans hle (UInt64.le_of_lt (hfirst u hu))

/-- Every call can be made on every stack. -/
theorem exists_step (hascending : stack.Pairwise fun u v ↦ u.height < v.height) (c : Call σ) :
    ∃ a stack', Step stack c a stack' := by
  cases c with
  | record undo =>
    by_cases hpresent : ∃ old ∈ stack, old.height = undo.height
    · obtain ⟨old, found, same⟩ := hpresent
      exact ⟨_, _, .present found same⟩
    · have habsent : ∀ old ∈ stack, old.height ≠ undo.height :=
        fun old hold hsame ↦ hpresent ⟨old, hold, hsame⟩
      cases hlast : stack.getLast? with
      | none => exact ⟨_, _, .above (by simp [hlast])⟩
      | some last =>
        by_cases holder : undo.height < last.height
        · exact ⟨_, _, .below hlast holder habsent⟩
        · refine ⟨_, _, .above fun last' hlast' ↦ ?_⟩
          obtain rfl : last = last' := Option.some.inj (hlast.symm.trans hlast')
          have hne := habsent last (List.mem_of_getLast? hlast)
          exact UInt64.lt_of_le_of_ne (UInt64.not_lt.1 holder) hne
  | undo height revert target =>
    cases hlast : stack.getLast? with
    | none =>
      obtain rfl := List.getLast?_eq_none_iff.1 hlast
      exact ⟨_, _, .bare height revert target⟩
    | some last =>
      by_cases hheight : last.height = height
      · obtain ⟨rest, rfl⟩ := List.getLast?_eq_some_iff.1 hlast
        subst hheight
        exact ⟨_, _, .top (unwinds_forM revert _ _ target)⟩
      · exact ⟨_, _, .other hlast hheight⟩
  | prune below =>
    obtain ⟨low, high, rfl, hlow, hhigh⟩ := exists_split hascending below
    exact ⟨_, _, .prune hlow hhigh⟩

theorem Holds.step_iff (h : j.Holds stack) : Step stack c a stack' ↔
    a = (j.perform c).1 ∧ stack' = (j.perform c).2.blocks.values := by
  have hdoes : ∀ {a stack'}, Step stack c a stack' →
      a = (j.perform c).1 ∧ stack' = (j.perform c).2.blocks.values := by
    intro a stack' hstep
    obtain ⟨hanswer, hheld⟩ := h.perform hstep
    exact ⟨hanswer.symm, hheld.values_eq.symm⟩
  refine ⟨hdoes, ?_⟩
  rintro ⟨rfl, rfl⟩
  obtain ⟨a, stack', hstep⟩ := exists_step h.ascending c
  obtain ⟨rfl, rfl⟩ := hdoes hstep
  exact hstep

theorem holds_afterAll (calls : List (Call σ)) :
    (afterAll calls).Holds (afterAll calls).blocks.values := by
  induction calls using List.reverseRecOn with
  | nil => rfl
  | append_singleton calls c ih =>
    obtain ⟨a, stack', hstep⟩ := exists_step ih.ascending c
    obtain ⟨-, hheld⟩ := ih.perform hstep
    rw [afterAll, List.foldl_append]
    change ((afterAll calls).perform c).2.Holds ((afterAll calls).perform c).2.blocks.values
    rwa [hheld.values_eq]

/-! ## Records that come and go -/

theorem Step.eq_of_new (h : Step stack c a stack') (hold : undo ∉ stack) (hnew : undo ∈ stack') :
    c = .record undo ∧ stack' = stack ++ [undo] := by
  cases h with
  | above =>
    rcases List.mem_append.1 hnew with hmem | hself
    · exact absurd hmem hold
    · rw [List.mem_singleton.1 hself]
      exact ⟨rfl, rfl⟩
  | present | below | bare | other => exact absurd hnew hold
  | top => exact absurd (List.mem_append_left _ hnew) hold
  | prune => exact absurd (List.mem_append_right _ hnew) hold

theorem Step.eq_of_gone (h : Step stack c a stack') (hold : undo ∈ stack) (hgone : undo ∉ stack') :
    (∃ revert target, c = .undo undo.height revert target ∧ stack = stack' ++ [undo]) ∨
      ∃ below, c = .prune below ∧ undo.height < below ∧ ∀ u ∈ stack', below ≤ u.height := by
  cases h with
  | above => exact absurd (List.mem_append_left _ hold) hgone
  | present | below | bare | other => exact absurd hold hgone
  | @top _ last revert target =>
    rcases List.mem_append.1 hold with hmem | hself
    · exact absurd hmem hgone
    · rw [List.mem_singleton.1 hself]
      exact .inl ⟨revert, target, rfl, rfl⟩
  | @prune low high below older kept =>
    rcases List.mem_append.1 hold with hlow | hhigh
    · exact .inr ⟨below, rfl, older undo hlow, kept⟩
    · exact absurd hhigh hgone

/-! ## Calls matched like brackets -/

/-- The records that the journal holds before the call of a number, lowest first. -/
def held (calls : List (Call σ)) (n : Nat) : List BlockUndo :=
  (afterAll (calls.take n)).blocks.values

/-- The call of a number puts a record on the stack. -/
def Puts (calls : List (Call σ)) (n : Nat) (undo : BlockUndo) : Prop :=
  calls[n]? = some (.record undo) ∧ held calls (n + 1) = held calls n ++ [undo]

/-- The call of a number takes a record from the top of the stack and reverts it. -/
def Undoes (calls : List (Call σ)) (n : Nat) (undo : BlockUndo) : Prop :=
  (∃ revert target, calls[n]? = some (.undo undo.height revert target)) ∧
    held calls n = held calls (n + 1) ++ [undo]

/-- One call undoes what another has put on the stack, and it was there all the time between. -/
def Matches (calls : List (Call σ)) (m n : Nat) : Prop :=
  m < n ∧ ∃ undo, Puts calls m undo ∧ Undoes calls n undo ∧
    ∀ k, m < k → k ≤ n → undo ∈ held calls k

/-- The journal under a sequence of calls is a stack: each call takes exactly the step of the stack,
every record that is undone was put there by one call, it is undone once, and what was put above it
has been undone before. -/
structure Stacks (calls : List (Call σ)) : Prop where
  fresh : held calls 0 = []
  holds : ∀ n, (afterAll (calls.take n)).Holds (held calls n)
  ascending : ∀ n, (held calls n).Pairwise fun u v ↦ u.height < v.height
  step_iff : ∀ n c, calls[n]? = some c → ∀ a stack, Step (held calls n) c a stack ↔
    a = ((afterAll (calls.take n)).perform c).1 ∧ stack = held calls (n + 1)
  matched : ∀ n undo, Undoes calls n undo → ∃! m, Matches calls m n
  once : ∀ m n n', Matches calls m n → Matches calls m n' → n = n'
  nested : ∀ m m' n undo, Matches calls m n → Puts calls m' undo → m < m' → m' < n →
    ∃ n', n' < n ∧ Matches calls m' n'

variable {calls : List (Call σ)} {m n n' : Nat}

theorem holds_held (calls : List (Call σ)) (n : Nat) :
    (afterAll (calls.take n)).Holds (held calls n) := holds_afterAll _

theorem held_succ (h : calls[n]? = some c) :
    held calls (n + 1) = ((afterAll (calls.take n)).perform c).2.blocks.values := by
  rw [held, List.take_add_one, h, Option.toList_some, afterAll, List.foldl_append]
  rfl

theorem held_succ_of_none (h : calls[n]? = none) : held calls (n + 1) = held calls n := by
  rw [held, List.take_add_one, h, Option.toList_none, List.append_nil]
  rfl

theorem step_held_iff (h : calls[n]? = some c) : Step (held calls n) c a stack ↔
    a = ((afterAll (calls.take n)).perform c).1 ∧ stack = held calls (n + 1) := by
  rw [held_succ h]
  exact (holds_held calls n).step_iff

theorem step_held (h : calls[n]? = some c) :
    Step (held calls n) c ((afterAll (calls.take n)).perform c).1 (held calls (n + 1)) :=
  (step_held_iff h).2 ⟨rfl, rfl⟩

theorem puts_of_new (hold : undo ∉ held calls n) (hnew : undo ∈ held calls (n + 1)) :
    Puts calls n undo := by
  cases hcall : calls[n]? with
  | none => exact absurd (held_succ_of_none hcall ▸ hnew) hold
  | some c =>
    obtain ⟨rfl, hheld⟩ := (step_held hcall).eq_of_new hold hnew
    exact ⟨hcall, hheld⟩

theorem gone_cases (hold : undo ∈ held calls n) (hgone : undo ∉ held calls (n + 1)) :
    Undoes calls n undo ∨
      ∃ below, undo.height < below ∧ ∀ u ∈ held calls (n + 1), below ≤ u.height := by
  cases hcall : calls[n]? with
  | none => exact absurd (held_succ_of_none hcall ▸ hold) hgone
  | some c =>
    rcases (step_held hcall).eq_of_gone hold hgone with ⟨revert, target, rfl, hheld⟩ | hdropped
    · exact .inl ⟨⟨revert, target, hcall⟩, hheld⟩
    · obtain ⟨below, -, hlow, hhigh⟩ := hdropped
      exact .inr ⟨below, hlow, hhigh⟩

/-- What is put on the stack lies above all that is there. -/
theorem Puts.height_lt (h : Puts calls n undo) {old : BlockUndo} (hold : old ∈ held calls n) :
    old.height < undo.height :=
  Holds.height_lt (h.2 ▸ holds_held calls (n + 1)) hold

theorem Puts.notMem (h : Puts calls n undo) : undo ∉ held calls n :=
  fun hmem ↦ absurd (h.height_lt hmem) (UInt64.lt_irrefl _)

theorem Puts.mem (h : Puts calls n undo) : undo ∈ held calls (n + 1) := by
  rw [h.2]
  exact List.mem_append_right _ (List.mem_singleton_self undo)

theorem Undoes.height_lt (h : Undoes calls n undo) {old : BlockUndo}
    (hold : old ∈ held calls (n + 1)) : old.height < undo.height :=
  Holds.height_lt (h.2 ▸ holds_held calls n) hold

theorem Undoes.notMem (h : Undoes calls n undo) : undo ∉ held calls (n + 1) :=
  fun hmem ↦ absurd (h.height_lt hmem) (UInt64.lt_irrefl _)

theorem Undoes.mem (h : Undoes calls n undo) : undo ∈ held calls n := by
  rw [h.2]
  exact List.mem_append_right _ (List.mem_singleton_self undo)

/-- Whatever is on the stack was put there, and has been there since. -/
theorem exists_puts (hmem : undo ∈ held calls n) :
    ∃ m, m < n ∧ Puts calls m undo ∧ ∀ k, m < k → k ≤ n → undo ∈ held calls k := by
  induction n with
  | zero => exact nomatch hmem
  | succ n ih =>
    by_cases hold : undo ∈ held calls n
    · obtain ⟨m, hlt, hputs, hstays⟩ := ih hold
      refine ⟨m, by omega, hputs, fun k hk hle ↦ ?_⟩
      rcases Nat.le_or_eq_of_le_succ hle with hle | rfl
      · exact hstays k hk hle
      · exact hmem
    · refine ⟨n, by omega, puts_of_new hold hmem, fun k hk hle ↦ ?_⟩
      rwa [show k = n + 1 by omega]

/-- What leaves the stack does so at some call, and is there up to that call. -/
theorem exists_leaves {d : Nat} (hmem : undo ∈ held calls m) (hgone : undo ∉ held calls (m + d)) :
    ∃ k, m ≤ k ∧ k < m + d ∧ undo ∉ held calls (k + 1) ∧
      ∀ i, m ≤ i → i ≤ k → undo ∈ held calls i := by
  induction d generalizing m with
  | zero => exact absurd hmem hgone
  | succ d ih =>
    by_cases hnext : undo ∈ held calls (m + 1)
    · rw [show m + (d + 1) = m + 1 + d by omega] at hgone
      obtain ⟨k, hmk, hkd, hleaves, hstays⟩ := ih hnext hgone
      refine ⟨k, by omega, by omega, hleaves, fun i hmi hik ↦ ?_⟩
      rcases Nat.eq_or_lt_of_le hmi with rfl | hlt
      · exact hmem
      · exact hstays i hlt hik
    · refine ⟨m, Nat.le_refl m, by omega, hnext, fun i hmi him ↦ ?_⟩
      rwa [Nat.le_antisymm him hmi]

/-! ### Each record is undone once -/

theorem Undoes.existsUnique_matches (h : Undoes calls n undo) : ∃! m, Matches calls m n := by
  obtain ⟨m, hlt, hputs, hstays⟩ := exists_puts h.mem
  refine ⟨m, ⟨hlt, undo, hputs, h, hstays⟩, ?_⟩
  rintro m' ⟨hlt', undo', hputs', hundoes', hstays'⟩
  -- Both are about the record on top.
  have hsame : held calls (n + 1) ++ [undo] = held calls (n + 1) ++ [undo'] :=
    h.2.symm.trans hundoes'.2
  obtain rfl : undo = undo' := List.singleton_inj.1 (List.append_cancel_left hsame)
  rcases Nat.lt_trichotomy m m' with hbefore | rfl | hafter
  · exact absurd (hstays m' hbefore (by omega)) hputs'.notMem
  · rfl
  · exact absurd (hstays' m hafter (by omega)) hputs.notMem

theorem Puts.undo_unique {undo' : BlockUndo} (h : Puts calls m undo) (h' : Puts calls m undo') :
    undo' = undo := by
  have hcall := h.1.symm.trans h'.1
  cases hcall
  rfl

theorem Matches.undone_once (h : Matches calls m n) (h' : Matches calls m n') : n = n' := by
  obtain ⟨hlt, undo, hputs, hundoes, hstays⟩ := h
  obtain ⟨hlt', undo', hputs', hundoes', hstays'⟩ := h'
  obtain rfl := hputs.undo_unique hputs'
  rcases Nat.lt_trichotomy n n' with hbefore | rfl | hafter
  · exact absurd (hstays' (n + 1) (by omega) hbefore) hundoes.notMem
  · rfl
  · exact absurd (hstays (n' + 1) (by omega) hafter) hundoes'.notMem

/-- Above a record that is undone nothing is left, and nothing was dropped from there. -/
theorem Matches.exists_matches {m' : Nat} (h : Matches calls m n) (hputs' : Puts calls m' undo)
    (hlt : m < m') (hlt' : m' < n) : ∃ n', n' < n ∧ Matches calls m' n' := by
  obtain ⟨-, lower, -, hundoes, hstays⟩ := h
  have habove : lower.height < undo.height := hputs'.height_lt (hstays m' hlt (by omega))
  have hgone : undo ∉ held calls n := by
    intro hmem
    rw [hundoes.2] at hmem
    rcases List.mem_append.1 hmem with hbelow | hself
    · exact absurd (UInt64.lt_trans habove (hundoes.height_lt hbelow)) (UInt64.lt_irrefl _)
    · rw [List.mem_singleton.1 hself] at habove
      exact absurd habove (UInt64.lt_irrefl _)
  obtain ⟨d, rfl⟩ := Nat.exists_eq_add_of_le (show m' + 1 ≤ n from hlt')
  obtain ⟨k, hmk, hkn, hleaves, hthere⟩ := exists_leaves hputs'.mem hgone
  rcases gone_cases (hthere k hmk (Nat.le_refl k)) hleaves with hback | ⟨below, hlow, hkept⟩
  · exact ⟨k, hkn, hmk, undo, hputs', hback, hthere⟩
  · -- What is dropped takes all with it that is lower.
    have hlower := hkept lower (hstays (k + 1) (by omega) hkn)
    exact absurd (UInt64.lt_of_lt_of_le (UInt64.lt_trans habove hlow) hlower) (UInt64.lt_irrefl _)

/-- Under any calls and with any targets the journal is a stack of records with ascending heights. -/
theorem afterAll_stacks (calls : List (Call σ)) : Stacks calls where
  fresh := rfl
  holds := holds_held calls
  ascending n := (holds_held calls n).ascending
  step_iff _ _ hcall _ _ := step_held_iff hcall
  matched _ _ hundoes := hundoes.existsUnique_matches
  once _ _ _ h h' := h.undone_once h'
  nested _ _ _ _ h hputs hlt hlt' := h.exists_matches hputs hlt hlt'

end UndoJournal

end MiningGame
