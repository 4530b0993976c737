/-!
# Tables in key order

A table is a list of entries with strictly ascending keys, so each key occurs at most once and a
table is determined by its look-ups (`Table.ext_get?`). Keys are compared by a rank in the natural
numbers, which keeps questions of order within reach of linear arithmetic.
-/

namespace MiningGame

/-- Keys that are ordered by a natural number which determines them. -/
class Ranked (κ : Type) where
  /-- The place of a key in the order. -/
  rank : κ → Nat
  rank_injective : ∀ {a b : κ}, rank a = rank b → a = b

export Ranked (rank rank_injective)

instance : Ranked UInt64 where
  rank := UInt64.toNat
  rank_injective := UInt64.toNat_inj.1

theorem rank_inj {κ : Type} [Ranked κ] {a b : κ} : rank a = rank b ↔ a = b :=
  ⟨rank_injective, fun h ↦ h ▸ rfl⟩

/-- Entries are in strictly ascending order of their keys. -/
abbrev Ascending {κ α : Type} [Ranked κ] (entries : List (κ × α)) : Prop :=
  entries.Pairwise fun a b ↦ rank a.1 < rank b.1

/-- Entries in strictly ascending order of their keys. -/
structure Table (κ α : Type) [Ranked κ] where
  entries : List (κ × α)
  ascending : Ascending entries := by decide
  deriving DecidableEq

namespace Table

variable {κ α : Type} [Ranked κ]

/-- The value that a list of entries holds under a key. -/
def lookUp (k : κ) : List (κ × α) → Option α
  | [] => none
  | (k', v) :: rest => if rank k = rank k' then some v else lookUp k rest

/-- Entries with the value under a key replaced, or added at its place. -/
def put (k : κ) (v : α) : List (κ × α) → List (κ × α)
  | [] => [(k, v)]
  | (k', v') :: rest =>
    if rank k < rank k' then (k, v) :: (k', v') :: rest
    else if rank k = rank k' then (k, v) :: rest
    else (k', v') :: put k v rest

theorem mem_put {k : κ} {v : α} {e : κ × α} {entries : List (κ × α)} :
    e ∈ put k v entries → e = (k, v) ∨ e ∈ entries := by
  induction entries with
  | nil => simp [put]
  | cons head rest ih =>
    obtain ⟨k', v'⟩ := head
    rw [put]
    split
    · simp
    · split
      · intro h
        rcases List.mem_cons.1 h with h | h <;> simp [h]
      · intro h
        rcases List.mem_cons.1 h with h | h
        · simp [h]
        · rcases ih h with h | h <;> simp [h]

theorem ascending_put {k : κ} {v : α} {entries : List (κ × α)} (h : Ascending entries) :
    Ascending (put k v entries) := by
  induction entries with
  | nil => simp [put, Ascending]
  | cons head rest ih =>
    obtain ⟨k', v'⟩ := head
    obtain ⟨hhead, hrest⟩ := List.pairwise_cons.1 h
    rw [put]
    split
    · next hlt =>
      refine List.pairwise_cons.2 ⟨fun e he ↦ ?_, h⟩
      rcases List.mem_cons.1 he with rfl | he
      · exact hlt
      · exact Nat.lt_trans hlt (hhead e he)
    · next hge =>
      split
      · next heq =>
        refine List.pairwise_cons.2 ⟨fun e he ↦ ?_, hrest⟩
        have := hhead e he
        simp only at this ⊢
        omega
      · next hne =>
        refine List.pairwise_cons.2 ⟨fun e he ↦ ?_, ih hrest⟩
        rcases mem_put he with rfl | he
        · simp only at hge hne ⊢
          omega
        · exact hhead e he

/-- A key above all others goes to the end. -/
theorem put_of_above {k : κ} {v : α} {entries : List (κ × α)}
    (h : ∀ e ∈ entries, rank e.1 < rank k) : put k v entries = entries ++ [(k, v)] := by
  induction entries with
  | nil => rfl
  | cons head rest ih =>
    have hhead := h head List.mem_cons_self
    rw [put, if_neg (by omega), if_neg (by omega), ih fun e he ↦ h e (List.mem_cons_of_mem _ he)]
    rfl

def empty : Table κ α := ⟨[], List.Pairwise.nil⟩

instance : EmptyCollection (Table κ α) := ⟨empty⟩
instance : Inhabited (Table κ α) := ⟨empty⟩

def get? (t : Table κ α) (k : κ) : Option α := lookUp k t.entries

def contains (t : Table κ α) (k : κ) : Bool := (t.get? k).isSome

/-- The table with a value put under a key, in place of any value there. -/
def insert (t : Table κ α) (k : κ) (v : α) : Table κ α :=
  ⟨put k v t.entries, ascending_put t.ascending⟩

/-- The table with only the entries that pass a test. -/
def filter (t : Table κ α) (p : κ → α → Bool) : Table κ α :=
  ⟨t.entries.filter fun e ↦ p e.1 e.2, t.ascending.filter _⟩

/-- The table with nothing under a key. -/
def erase (t : Table κ α) (k : κ) : Table κ α := t.filter fun k' _ ↦ rank k' != rank k

def keys (t : Table κ α) : List κ := t.entries.map (·.1)

def values (t : Table κ α) : List α := t.entries.map (·.2)

def size (t : Table κ α) : Nat := t.entries.length

def isEmpty (t : Table κ α) : Bool := t.entries.isEmpty

def firstKey? (t : Table κ α) : Option κ := t.keys.head?

def lastKey? (t : Table κ α) : Option κ := t.keys.getLast?

/-- The table that a list of entries builds; of two values under one key the later stays. -/
def ofList (entries : List (κ × α)) : Table κ α :=
  entries.foldl (fun t e ↦ t.insert e.1 e.2) empty

/-! ### Look-ups -/

theorem lookUp_put (k k' : κ) (v : α) (entries : List (κ × α)) :
    lookUp k' (put k v entries) = if rank k' = rank k then some v else lookUp k' entries := by
  induction entries with
  | nil => simp [put, lookUp]
  | cons head rest ih =>
    obtain ⟨k₁, v₁⟩ := head
    rw [put]
    split
    · rw [lookUp]
    · split
      · next heq =>
        simp only [lookUp, heq]
        split <;> rfl
      · next hne =>
        simp only [lookUp, ih]
        by_cases heq : rank k' = rank k
        · rw [if_neg (by omega), if_pos heq, if_pos heq]
        · rw [if_neg heq, if_neg heq]

theorem lookUp_eq_none_of_lt {k : κ} {entries : List (κ × α)}
    (h : ∀ e ∈ entries, rank k < rank e.1) : lookUp k entries = none := by
  induction entries with
  | nil => rfl
  | cons head rest ih =>
    have hhead := h head (by simp)
    rw [lookUp, if_neg (by omega)]
    exact ih fun e he ↦ h e (List.mem_cons_of_mem _ he)

theorem lookUp_eq_some_iff {k : κ} {v : α} {entries : List (κ × α)} (h : Ascending entries) :
    lookUp k entries = some v ↔ (k, v) ∈ entries := by
  induction entries with
  | nil => simp [lookUp]
  | cons head rest ih =>
    obtain ⟨k', v'⟩ := head
    obtain ⟨hhead, hrest⟩ := List.pairwise_cons.1 h
    rw [lookUp]
    split
    · next heq =>
      obtain rfl := rank_injective heq
      constructor
      · rintro ⟨⟩
        simp
      · intro hmem
        rcases List.mem_cons.1 hmem with hmem | hmem
        · obtain ⟨-, rfl⟩ := Prod.mk.inj hmem
          rfl
        · exact absurd (hhead _ hmem) (Nat.lt_irrefl _)
    · next hne =>
      rw [ih hrest, List.mem_cons]
      constructor
      · exact Or.inr
      · rintro (hmem | hmem)
        · obtain ⟨rfl, -⟩ := Prod.mk.inj hmem
          exact absurd rfl hne
        · exact hmem

theorem get?_eq_some_iff {t : Table κ α} {k : κ} {v : α} :
    t.get? k = some v ↔ (k, v) ∈ t.entries :=
  lookUp_eq_some_iff t.ascending

@[simp] theorem get?_empty (k : κ) : (∅ : Table κ α).get? k = none := rfl

theorem get?_insert (t : Table κ α) (k k' : κ) (v : α) :
    (t.insert k v).get? k' = if rank k' = rank k then some v else t.get? k' :=
  lookUp_put k k' v t.entries

@[simp] theorem get?_insert_self (t : Table κ α) (k : κ) (v : α) :
    (t.insert k v).get? k = some v := by
  rw [get?_insert, if_pos rfl]

theorem get?_insert_of_ne (t : Table κ α) {k k' : κ} (v : α) (h : k' ≠ k) :
    (t.insert k v).get? k' = t.get? k' := by
  rw [get?_insert, if_neg (mt rank_injective h)]

theorem get?_filter (t : Table κ α) (p : κ → α → Bool) (k : κ) :
    (t.filter p).get? k = (t.get? k).filter (p k) := by
  apply Option.ext
  intro v
  rw [Option.filter_eq_some_iff]
  simp only [get?_eq_some_iff, filter, List.mem_filter]

theorem get?_erase (t : Table κ α) (k k' : κ) :
    (t.erase k).get? k' = if rank k' = rank k then none else t.get? k' := by
  rw [erase, get?_filter]
  split
  · next h => cases t.get? k' <;> simp [h]
  · next h => cases t.get? k' <;> simp [h]

@[simp] theorem get?_erase_self (t : Table κ α) (k : κ) : (t.erase k).get? k = none := by
  rw [get?_erase, if_pos rfl]

theorem get?_erase_of_ne (t : Table κ α) {k k' : κ} (h : k' ≠ k) :
    (t.erase k).get? k' = t.get? k' := by
  rw [get?_erase, if_neg (mt rank_injective h)]

/-! ### Extensionality -/

theorem eq_of_mem_iff {l₁ l₂ : List (κ × α)} (h₁ : Ascending l₁) (h₂ : Ascending l₂)
    (h : ∀ e, e ∈ l₁ ↔ e ∈ l₂) : l₁ = l₂ := by
  induction l₁ generalizing l₂ with
  | nil =>
    cases l₂ with
    | nil => rfl
    | cons b r₂ => exact absurd ((h b).2 (by simp)) (by simp)
  | cons a r₁ ih =>
    cases l₂ with
    | nil => exact absurd ((h a).1 (by simp)) (by simp)
    | cons b r₂ =>
      obtain ⟨ha, hr₁⟩ := List.pairwise_cons.1 h₁
      obtain ⟨hb, hr₂⟩ := List.pairwise_cons.1 h₂
      have hab : a = b := by
        rcases List.mem_cons.1 ((h a).1 (by simp)) with hab | hmem
        · exact hab
        · rcases List.mem_cons.1 ((h b).2 (by simp)) with hba | hmem'
          · exact hba.symm
          · have h1 := ha b hmem'
            have h2 := hb a hmem
            omega
      subst hab
      refine congrArg _ (ih hr₁ hr₂ fun e ↦ ⟨fun he ↦ ?_, fun he ↦ ?_⟩)
      · rcases List.mem_cons.1 ((h e).1 (List.mem_cons_of_mem _ he)) with rfl | hmem
        · exact absurd (ha _ he) (Nat.lt_irrefl _)
        · exact hmem
      · rcases List.mem_cons.1 ((h e).2 (List.mem_cons_of_mem _ he)) with rfl | hmem
        · exact absurd (hb _ he) (Nat.lt_irrefl _)
        · exact hmem

theorem ext_entries {t₁ t₂ : Table κ α} (h : t₁.entries = t₂.entries) : t₁ = t₂ := by
  cases t₁
  cases t₂
  cases h
  rfl

/-- Two tables that answer every look-up alike are equal. -/
theorem ext_get? {t₁ t₂ : Table κ α} (h : ∀ k, t₁.get? k = t₂.get? k) : t₁ = t₂ := by
  refine ext_entries (eq_of_mem_iff t₁.ascending t₂.ascending fun e ↦ ?_)
  obtain ⟨k, v⟩ := e
  rw [← get?_eq_some_iff, ← get?_eq_some_iff, h]

theorem get?_foldl_insert_eq_some_iff {entries : List (κ × α)}
    (h : (entries.map (·.1)).Nodup) (t : Table κ α) {k : κ} {v : α} :
    (entries.foldl (fun t e ↦ t.insert e.1 e.2) t).get? k = some v ↔
      (k, v) ∈ entries ∨ k ∉ entries.map (·.1) ∧ t.get? k = some v := by
  induction entries generalizing t with
  | nil => simp
  | cons e rest ih =>
    obtain ⟨k', v'⟩ := e
    obtain ⟨hfresh, hrest⟩ := List.nodup_cons.1 h
    rw [List.foldl_cons, ih hrest]
    by_cases hk : k = k'
    · subst hk
      have hnot : (k, v) ∉ rest := fun hmem ↦ hfresh (List.mem_map.2 ⟨_, hmem, rfl⟩)
      have hfresh : k ∉ rest.map (·.1) := hfresh
      rw [get?_insert_self]
      simp [hnot, hfresh, eq_comm]
    · rw [get?_insert_of_ne t v' hk]
      simp [hk]

theorem get?_ofList_eq_some_iff {entries : List (κ × α)}
    (h : (entries.map (·.1)).Nodup) {k : κ} {v : α} :
    (ofList entries).get? k = some v ↔ (k, v) ∈ entries := by
  refine (get?_foldl_insert_eq_some_iff h empty).trans (or_iff_left ?_)
  exact fun hempty ↦ nomatch hempty.2

/-- The entries of a table build it again. -/
theorem ofList_entries (t : Table κ α) : ofList t.entries = t := by
  have hkeys : (t.entries.map (·.1)).Nodup :=
    List.pairwise_map.2 (t.ascending.imp fun hlt heq ↦ Nat.ne_of_lt hlt (congrArg rank heq))
  exact ext_get? fun k ↦ Option.ext fun v ↦
    (get?_ofList_eq_some_iff hkeys).trans get?_eq_some_iff.symm

/-! ### The ends -/

theorem mem_keys_iff {t : Table κ α} {k : κ} : k ∈ t.keys ↔ ∃ v, t.get? k = some v := by
  simp only [keys, List.mem_map, get?_eq_some_iff]
  constructor
  · rintro ⟨e, he, rfl⟩
    exact ⟨e.2, he⟩
  · rintro ⟨v, hv⟩
    exact ⟨(k, v), hv, rfl⟩

theorem keys_pairwise (t : Table κ α) : t.keys.Pairwise fun a b ↦ rank a < rank b :=
  List.pairwise_map.2 t.ascending

theorem firstKey?_eq_some {t : Table κ α} {k : κ} (hk : k ∈ t.keys)
    (hleast : ∀ k' ∈ t.keys, rank k ≤ rank k') : t.firstKey? = some k := by
  have hpair := t.keys_pairwise
  unfold firstKey?
  cases hkeys : t.keys with
  | nil =>
    rw [hkeys] at hk
    cases hk
  | cons first rest =>
    rw [hkeys] at hk hleast hpair
    rcases List.mem_cons.1 hk with rfl | hrest
    · rfl
    · have hlt := (List.pairwise_cons.1 hpair).1 k hrest
      have hle := hleast first List.mem_cons_self
      omega

theorem lastKey?_eq_some {t : Table κ α} {k : κ} (hk : k ∈ t.keys)
    (hgreatest : ∀ k' ∈ t.keys, rank k' ≤ rank k) : t.lastKey? = some k := by
  have hpair := t.keys_pairwise
  unfold lastKey?
  cases hlast : t.keys.getLast? with
  | none =>
    rw [List.getLast?_eq_none_iff.1 hlast] at hk
    cases hk
  | some last =>
    obtain ⟨before, hkeys⟩ := List.getLast?_eq_some_iff.1 hlast
    rw [hkeys] at hk hgreatest hpair
    rcases List.mem_append.1 hk with hbefore | hlast
    · have hlt := (List.pairwise_append.1 hpair).2.2 k hbefore last (List.mem_singleton_self last)
      have hle := hgreatest last (List.mem_append_right before (List.mem_singleton_self last))
      omega
    · rw [List.mem_singleton.1 hlast]

theorem mem_keys_of_lastKey? {t : Table κ α} {k : κ} (h : t.lastKey? = some k) : k ∈ t.keys :=
  List.mem_of_getLast? h

end Table

end MiningGame
