import MiningGame.Block.Turn

/-!
# Contracts of computations

A computation that fails keeps the changes it made before. Its contract therefore names three
conditions: one it is started under, one its answer comes with, and one a failure comes with.
Contracts of the parts give a contract of the whole (`Contract.bind`, `Contract.forM`).
-/

namespace MiningGame

variable {ε σ α β : Type}

/-- The state in which a computation ends, whether it answers or fails. -/
def ending : EStateM.Result ε σ α → σ
  | .ok _ s => s
  | .error _ s => s

/-- The answer of a computation and the state in which it ends, if it succeeds. -/
def outcome? : EStateM.Result ε σ α → Option (α × σ)
  | .ok a s => some (a, s)
  | .error _ _ => none

theorem outcome?_eq_some_iff {r : EStateM.Result ε σ α} {a : α} {s : σ} :
    outcome? r = some (a, s) ↔ r = .ok a s := by
  cases r <;> simp [outcome?]

theorem bind_of_ok {t : EStateM ε σ α} {f : α → EStateM ε σ β} {s s' : σ} {a : α}
    (h : t s = .ok a s') : (t >>= f) s = f a s' := by
  change EStateM.bind t f s = f a s'
  unfold EStateM.bind
  rw [h]

theorem bind_of_error {t : EStateM ε σ α} {f : α → EStateM ε σ β} {s s' : σ} {e : ε}
    (h : t s = .error e s') : (t >>= f) s = .error e s' := by
  change EStateM.bind t f s = .error e s'
  unfold EStateM.bind
  rw [h]

theorem bind_congr_of_eq {t t' : EStateM ε σ α} {f : α → EStateM ε σ β} {s : σ}
    (h : t s = t' s) : (t >>= f) s = (t' >>= f) s := by
  cases hrun : t' s with
  | ok a s' => exact (bind_of_ok (h.trans hrun)).trans (bind_of_ok hrun).symm
  | error e s' => exact (bind_of_error (h.trans hrun)).trans (bind_of_error hrun).symm

theorem forM_append_of_ok {f : α → EStateM ε σ Unit} {l l' : List α} {s s' : σ}
    (h : l.forM f s = .ok () s') : (l ++ l').forM f s = l'.forM f s' := by
  induction l generalizing s with
  | nil =>
    cases h
    rfl
  | cons a l ih =>
    cases hfirst : f a s with
    | ok _ s₁ =>
      have hrest : l.forM f s₁ = .ok () s' := (bind_of_ok hfirst).symm.trans h
      exact (bind_of_ok hfirst).trans (ih hrest)
    | error e s₁ => cases (bind_of_error hfirst).symm.trans h

/-- Started under `P`, a computation answers under `Q` or fails under `E`. -/
def Contract (P : σ → Prop) (t : EStateM ε σ α) (Q : α → σ → Prop) (E : ε → σ → Prop) : Prop :=
  ∀ s, P s → match t s with
    | .ok a s' => Q a s'
    | .error e s' => E e s'

/-- What holds before a computation holds after it as well, also after a failure. -/
abbrev Keeps (I : σ → Prop) (t : EStateM ε σ α) : Prop :=
  Contract I t (fun _ ↦ I) (fun _ ↦ I)

namespace Contract

variable {P P' : σ → Prop} {Q Q' : α → σ → Prop} {R : β → σ → Prop} {E E' : ε → σ → Prop}
  {t : EStateM ε σ α}

theorem of_ok (ht : Contract P t Q E) {s s' : σ} {a : α} (hs : P s) (h : t s = .ok a s') :
    Q a s' := by
  have hans := ht s hs
  rw [h] at hans
  exact hans

theorem of_error (ht : Contract P t Q E) {s s' : σ} {e : ε} (hs : P s) (h : t s = .error e s') :
    E e s' := by
  have hans := ht s hs
  rw [h] at hans
  exact hans

theorem pure {a : α} (h : ∀ s, P s → Q a s) : Contract P (pure a : EStateM ε σ α) Q E := h

theorem bind {f : α → EStateM ε σ β} (ht : Contract P t Q E)
    (hf : ∀ a, Contract (Q a) (f a) R E) : Contract P (t >>= f) R E := by
  intro s hs
  cases hrun : t s with
  | ok a s' =>
    rw [bind_of_ok hrun]
    exact hf a s' (ht.of_ok hs hrun)
  | error e s' =>
    rw [bind_of_error hrun]
    exact ht.of_error hs hrun

theorem mono (ht : Contract P t Q E) (hP : ∀ s, P' s → P s) (hQ : ∀ a s, Q a s → Q' a s)
    (hE : ∀ e s, E e s → E' e s) : Contract P' t Q' E' := by
  intro s hs
  cases hrun : t s with
  | ok a s' => exact hQ a s' (ht.of_ok (hP s hs) hrun)
  | error e s' => exact hE e s' (ht.of_error (hP s hs) hrun)

theorem forM {I : σ → Prop} {f : α → EStateM ε σ Unit} {l : List α}
    (h : ∀ a ∈ l, Contract I (f a) (fun _ ↦ I) E) : Contract I (l.forM f) (fun _ ↦ I) E := by
  induction l with
  | nil => exact Contract.pure fun _ hs ↦ hs
  | cons a l ih =>
    have hhead := h a List.mem_cons_self
    exact hhead.bind fun _ ↦ ih fun b hb ↦ h b (List.mem_cons_of_mem a hb)

theorem mapM {I : σ → Prop} {f : α → EStateM ε σ β} {l : List α}
    (h : ∀ a ∈ l, Contract I (f a) (fun _ ↦ I) E) : Contract I (l.mapM f) (fun _ ↦ I) E := by
  induction l with
  | nil => exact Contract.pure fun _ hs ↦ hs
  | cons a l ih =>
    have hhead := h a List.mem_cons_self
    rw [List.mapM_cons]
    refine hhead.bind fun b ↦ ?_
    refine (ih fun c hc ↦ h c (List.mem_cons_of_mem a hc)).bind fun _ ↦ ?_
    exact Contract.pure fun _ hs ↦ hs

end Contract

/-- Elements of a list with which nothing is done can be left out. -/
theorem forM_filter_of_idle {I : σ → Prop} {E : ε → σ → Prop} {f : α → EStateM ε σ Unit}
    {test : α → Bool} {l : List α} {s : σ} (hkeep : ∀ a ∈ l, Contract I (f a) (fun _ ↦ I) E)
    (hidle : ∀ a ∈ l, ∀ s, I s → test a = false → f a s = .ok () s) (hs : I s) :
    l.forM f s = (l.filter test).forM f s := by
  induction l generalizing s with
  | nil => rfl
  | cons a l ih =>
    obtain ⟨hfirst, hkeep⟩ := List.forall_mem_cons.1 hkeep
    obtain ⟨hskip, hidle⟩ := List.forall_mem_cons.1 hidle
    cases htest : test a with
    | false =>
      rw [List.filter_cons_of_neg (by simp [htest]), ← ih hkeep hidle hs]
      exact bind_of_ok (hskip s hs htest)
    | true =>
      rw [List.filter_cons_of_pos htest]
      cases hrun : f a s with
      | ok _ s' =>
        have hcons : ∀ rest : List α, (a :: rest).forM f s = rest.forM f s' :=
          fun _ ↦ bind_of_ok hrun
        rw [hcons, hcons]
        exact ih hkeep hidle (hfirst.of_ok hs hrun)
      | error e s' =>
        have hcons : ∀ rest : List α, (a :: rest).forM f s = .error e s' :=
          fun _ ↦ bind_of_error hrun
        rw [hcons, hcons]

/-- Elements of a list can be exchanged for others with which the same is done. -/
theorem forM_map_of_same {I : σ → Prop} {E : ε → σ → Prop} {f : α → EStateM ε σ Unit} {g : α → α}
    {l : List α} {s : σ} (hkeep : ∀ a ∈ l, Contract I (f a) (fun _ ↦ I) E)
    (hsame : ∀ a ∈ l, ∀ s, I s → f (g a) s = f a s) (hs : I s) :
    (l.map g).forM f s = l.forM f s := by
  induction l generalizing s with
  | nil => rfl
  | cons a l ih =>
    obtain ⟨hfirst, hkeep⟩ := List.forall_mem_cons.1 hkeep
    obtain ⟨hexchange, hsame⟩ := List.forall_mem_cons.1 hsame
    have hmap : ((a :: l).map g).forM f s = (a :: l.map g).forM f s :=
      bind_congr_of_eq (hexchange s hs)
    rw [hmap]
    cases hrun : f a s with
    | error e s' =>
      have hcons : ∀ rest : List α, (a :: rest).forM f s = .error e s' :=
        fun _ ↦ bind_of_error hrun
      rw [hcons, hcons]
    | ok _ s' =>
      have hcons : ∀ rest : List α, (a :: rest).forM f s = rest.forM f s' :=
        fun _ ↦ bind_of_ok hrun
      rw [hcons, hcons]
      exact ih hkeep hsame (hfirst.of_ok hs hrun)

end MiningGame
