import MiningGame.Proofs.Lexing

/-!
# Reading written values back

The compact and the pretty form of a value are cut into the same tokens, and feeding these tokens
completes the value. So a plain value is read back from either form
(`Plain.parse?_compactText`, `Plain.parse?_prettyText`).
-/

namespace MiningGame.Json

/-! ## The tokens of a value -/

mutual

def tokens : Json → List Token
  | str text => [.text (some text)]
  | arr items => .openArray :: itemTokens true items
  | obj fields => .openObject :: fieldTokens true fields
  | j => [.atom j]

/-- The tokens of the items of an array, up to its closing bracket. The first item has no comma
before it. -/
def itemTokens (isFirst : Bool) : List Json → List Token
  | [] => [.closeArray]
  | j :: rest => (if isFirst then [] else [.comma]) ++ tokens j ++ itemTokens false rest

/-- The tokens of the fields of an object, up to its closing brace. -/
def fieldTokens (isFirst : Bool) : List (String × Json) → List Token
  | [] => [.closeObject]
  | (name, j) :: rest =>
    (if isFirst then [] else [.comma]) ++ .text (some name) :: .colon :: tokens j ++
      fieldTokens false rest

end

/-- A value with a form of its own in a text: decimals are kept only as they are spelled, and what
is flawed is not kept at all. -/
inductive Plain : Json → Prop
  | null : Plain .null
  | bool (b : Bool) : Plain (.bool b)
  | int {n : Int} (h : Fits n) : Plain (.int n)
  | str (text : String) : Plain (.str text)
  | arr {items : List Json} (h : ∀ j ∈ items, Plain j) : Plain (.arr items)
  | obj {fields : List (String × Json)} (h : ∀ f ∈ fields, Plain f.2) : Plain (.obj fields)

theorem spells_null : Spells ['n', 'u', 'l', 'l'] [.atom .null] :=
  fun _ _ _ hcut ↦ .token ['u', 'l', 'l'] rfl rfl hcut

theorem spells_true : Spells ['t', 'r', 'u', 'e'] [.atom (.bool true)] :=
  fun _ _ _ hcut ↦ .token ['r', 'u', 'e'] rfl rfl hcut

theorem spells_false : Spells ['f', 'a', 'l', 's', 'e'] [.atom (.bool false)] :=
  fun _ _ _ hcut ↦ .token ['a', 'l', 's', 'e'] rfl rfl hcut

/-! ### The compact form -/

theorem spells_compactItems {items : List Json} (h : ∀ j ∈ items, Spells j.compact j.tokens) :
    Spells (compactItems items) (itemTokens true items) := by
  induction items with
  | nil => exact .mark rfl (fun _ ↦ rfl) .nil
  | cons j rest ih =>
    have hj := h j List.mem_cons_self
    have hrest := ih fun k hk ↦ h k (List.mem_cons_of_mem j hk)
    cases rest with
    | nil => exact hj.append (.mark rfl (fun _ ↦ rfl) .nil) (.cons rfl _)
    | cons k rest => exact hj.append (.mark rfl (fun _ ↦ rfl) hrest) (.cons rfl _)

theorem spells_compactField (name : String) {j : Json} (h : Spells j.compact j.tokens) :
    Spells (writtenText name ++ ':' :: j.compact) (.text (some name) :: .colon :: j.tokens) :=
  (Spells.writtenText name).append (.mark rfl (fun _ ↦ rfl) h) (.cons rfl _)

theorem spells_compactFields {fields : List (String × Json)}
    (h : ∀ f ∈ fields, Spells f.2.compact f.2.tokens) :
    Spells (compactFields fields) (fieldTokens true fields) := by
  induction fields with
  | nil => exact .mark rfl (fun _ ↦ rfl) .nil
  | cons f rest ih =>
    obtain ⟨name, j⟩ := f
    have hfield := spells_compactField name (h (name, j) List.mem_cons_self)
    have hrest := ih fun f hf ↦ h f (List.mem_cons_of_mem _ hf)
    cases rest with
    | nil => exact hfield.append (.mark rfl (fun _ ↦ rfl) .nil) (.cons rfl _)
    | cons f rest => exact hfield.append (.mark rfl (fun _ ↦ rfl) hrest) (.cons rfl _)

theorem Plain.spells_compact {j : Json} (h : j.Plain) : Spells j.compact j.tokens := by
  induction h with
  | null => exact spells_null
  | bool b =>
    cases b with
    | false => exact spells_false
    | true => exact spells_true
  | int h => exact .writtenInt h
  | str text => exact .writtenText text
  | arr _ ih => exact .mark rfl (fun _ ↦ rfl) (spells_compactItems ih)
  | obj _ ih => exact .mark rfl (fun _ ↦ rfl) (spells_compactFields ih)

/-! ### The pretty form -/

theorem spells_newLine {word : List Char} {ts : List Token} (level : Nat) (h : Spells word ts) :
    Spells (newLine level ++ word) ts := by
  refine h.blanks _ fun c hc ↦ ?_
  rcases List.mem_cons.1 hc with rfl | hc
  · rfl
  · rw [List.eq_of_mem_replicate hc]
    rfl

/-- An item or a field follows the opening bracket or a comma, on a line of its own. -/
theorem spells_part {word rest : List Char} {ts ts' : List Token} (isFirst : Bool) (level : Nat)
    (h : Spells word ts) (hrest : Spells rest ts') (hparts : Parts rest) :
    Spells ((if isFirst then [] else [',']) ++ newLine level ++ word ++ rest)
      ((if isFirst then [] else [.comma]) ++ ts ++ ts') := by
  have hline : Spells (newLine level ++ word ++ rest) (ts ++ ts') :=
    (spells_newLine level h).append hrest hparts
  cases isFirst with
  | true => exact hline
  | false => exact .mark rfl (fun _ ↦ rfl) hline

theorem spells_end {c : Char} {t : Token} (isFirst : Bool) (level : Nat) (h : Spells [c] [t]) :
    Spells ((if isFirst then [] else newLine level) ++ [c]) [t] := by
  cases isFirst with
  | true => exact h
  | false => exact spells_newLine level h

theorem parts_prettyItems (level : Nat) (items : List Json) :
    Parts (prettyItems level false items) := by
  cases items with
  | nil => exact .cons rfl _
  | cons j rest => exact .cons rfl _

theorem parts_prettyFields (level : Nat) (fields : List (String × Json)) :
    Parts (prettyFields level false fields) := by
  cases fields with
  | nil => exact .cons rfl _
  | cons f rest => exact .cons rfl _

theorem spells_prettyItems {level : Nat} {items : List Json} (isFirst : Bool)
    (h : ∀ j ∈ items, Spells (j.pretty (level + 1)) j.tokens) :
    Spells (prettyItems level isFirst items) (itemTokens isFirst items) := by
  induction items generalizing isFirst with
  | nil => exact spells_end isFirst level (.mark rfl (fun _ ↦ rfl) .nil)
  | cons j rest ih =>
    have hrest := ih false fun k hk ↦ h k (List.mem_cons_of_mem j hk)
    exact spells_part isFirst (level + 1) (h j List.mem_cons_self) hrest
      (parts_prettyItems level rest)

theorem spells_prettyField {level : Nat} (name : String) {j : Json}
    (h : Spells (j.pretty level) j.tokens) :
    Spells (writtenText name ++ ':' :: ' ' :: j.pretty level)
      (.text (some name) :: .colon :: j.tokens) := by
  have hblank : Spells (' ' :: j.pretty level) j.tokens := h.blanks [' '] (by simp [isBlank])
  exact (Spells.writtenText name).append (.mark rfl (fun _ ↦ rfl) hblank) (.cons rfl _)

theorem spells_prettyFields {level : Nat} {fields : List (String × Json)} (isFirst : Bool)
    (h : ∀ f ∈ fields, Spells (f.2.pretty (level + 1)) f.2.tokens) :
    Spells (prettyFields level isFirst fields) (fieldTokens isFirst fields) := by
  induction fields generalizing isFirst with
  | nil => exact spells_end isFirst level (.mark rfl (fun _ ↦ rfl) .nil)
  | cons f rest ih =>
    obtain ⟨name, j⟩ := f
    have hrest := ih false fun f hf ↦ h f (List.mem_cons_of_mem _ hf)
    have hfield := spells_prettyField name (h (name, j) List.mem_cons_self)
    have hpart := spells_part isFirst (level + 1) hfield hrest (parts_prettyFields level rest)
    rw [prettyFields, fieldTokens]
    simpa using hpart

theorem Plain.spells_pretty {j : Json} (h : j.Plain) (level : Nat) :
    Spells (j.pretty level) j.tokens := by
  induction h generalizing level with
  | null => exact spells_null
  | bool b =>
    cases b with
    | false => exact spells_false
    | true => exact spells_true
  | int h => exact .writtenInt h
  | str text => exact .writtenText text
  | arr _ ih => exact .mark rfl (fun _ ↦ rfl) (spells_prettyItems true fun j hj ↦ ih j hj _)
  | obj _ ih => exact .mark rfl (fun _ ↦ rfl) (spells_prettyFields true fun f hf ↦ ih f hf _)

/-! ## Feeding the tokens -/

/-- Feeding the tokens of a value completes it. -/
def Feeds (j : Json) : Prop :=
  ∀ frames, j.tokens.foldlM Progress.feed ⟨.value, frames⟩ = some (Progress.complete j frames)

namespace Feeds

/-- Where a container may end, a value may also begin. -/
theorem valueOrEnd {j : Json} (h : Feeds j) (frames : List Frame) :
    j.tokens.foldlM Progress.feed ⟨.valueOrEnd, frames⟩ = some (Progress.complete j frames) := by
  rw [← h frames]
  cases j <;> rfl

theorem items {items : List Json} (h : ∀ j ∈ items, Feeds j) (done : List Json)
    (frames : List Frame) :
    (itemTokens false items).foldlM Progress.feed ⟨.separator, .array done :: frames⟩ =
      some (Progress.complete (arr (done.reverse ++ items)) frames) := by
  induction items generalizing done with
  | nil =>
    rw [List.append_nil]
    rfl
  | cons j rest ih =>
    have hj := h j List.mem_cons_self (.array done :: frames)
    have hrest := ih (fun k hk ↦ h k (List.mem_cons_of_mem j hk)) (j :: done)
    have hcomma : (itemTokens false (j :: rest)).foldlM Progress.feed
        ⟨.separator, .array done :: frames⟩ = (j.tokens ++ itemTokens false rest).foldlM
          Progress.feed ⟨.value, .array done :: frames⟩ := rfl
    rw [hcomma, List.foldlM_append, hj]
    simpa [Progress.complete] using hrest

theorem arr {items : List Json} (h : ∀ j ∈ items, Feeds j) : Feeds (.arr items) := by
  intro frames
  cases items with
  | nil => rfl
  | cons j rest =>
    have hj := (h j List.mem_cons_self).valueOrEnd (.array [] :: frames)
    have hrest := Feeds.items (fun k hk ↦ h k (List.mem_cons_of_mem j hk)) [j] frames
    have hopen : (tokens (.arr (j :: rest))).foldlM Progress.feed ⟨.value, frames⟩ =
        (j.tokens ++ itemTokens false rest).foldlM Progress.feed
          ⟨.valueOrEnd, .array [] :: frames⟩ := rfl
    rw [hopen, List.foldlM_append, hj]
    exact hrest

theorem fields {fields : List (String × Json)} (h : ∀ f ∈ fields, Feeds f.2)
    (done : List (String × Json)) (name : String) (frames : List Frame) :
    (fieldTokens false fields).foldlM Progress.feed
        ⟨.separator, .object done false name :: frames⟩ =
      some (Progress.complete (obj (done.reverse ++ fields)) frames) := by
  induction fields generalizing done name with
  | nil =>
    rw [List.append_nil]
    rfl
  | cons f rest ih =>
    obtain ⟨name', j⟩ := f
    have hj := h (name', j) List.mem_cons_self (.object done false name' :: frames)
    have hrest := ih (fun f hf ↦ h f (List.mem_cons_of_mem _ hf)) ((name', j) :: done) name'
    have hname : (fieldTokens false ((name', j) :: rest)).foldlM Progress.feed
        ⟨.separator, .object done false name :: frames⟩ =
          (j.tokens ++ fieldTokens false rest).foldlM Progress.feed
            ⟨.value, .object done false name' :: frames⟩ := rfl
    rw [hname, List.foldlM_append, hj]
    simpa [Progress.complete] using hrest

theorem obj {fields : List (String × Json)} (h : ∀ f ∈ fields, Feeds f.2) :
    Feeds (.obj fields) := by
  intro frames
  cases fields with
  | nil => rfl
  | cons f rest =>
    obtain ⟨name, j⟩ := f
    have hj := h (name, j) List.mem_cons_self (.object [] false name :: frames)
    have hrest := Feeds.fields (fun f hf ↦ h f (List.mem_cons_of_mem _ hf)) [(name, j)] name frames
    have hopen : (tokens (.obj ((name, j) :: rest))).foldlM Progress.feed ⟨.value, frames⟩ =
        (j.tokens ++ fieldTokens false rest).foldlM Progress.feed
          ⟨.value, .object [] false name :: frames⟩ := rfl
    rw [hopen, List.foldlM_append, hj]
    exact hrest

end Feeds

theorem Plain.feeds {j : Json} (h : j.Plain) : Feeds j := by
  induction h with
  | null => exact fun _ ↦ rfl
  | bool b => exact fun _ ↦ rfl
  | int h => exact fun _ ↦ rfl
  | str text => exact fun _ ↦ rfl
  | arr _ ih => exact Feeds.arr ih
  | obj _ ih => exact Feeds.obj ih

/-! ## Whole texts -/

/-- A text that spells the tokens of a value, and ends with blanks, is read as this value. -/
theorem Plain.parse?_of_spells {j : Json} (h : j.Plain) {word : List Char}
    (hword : Spells word j.tokens) (blanks : List Char) (hblanks : ∀ c ∈ blanks, isBlank c = true) :
    parse? (String.ofList (word ++ blanks)) = some j := by
  have hbreaks : Breaks blanks := fun c hc ↦
    continues_of_isBlank (hblanks c (List.mem_of_mem_head? hc))
  have hend : Cut blanks [] := by
    have hcut := Cut.nil.blanks hblanks
    rwa [List.append_nil] at hcut
  have hcut : Cut (word ++ blanks) j.tokens := by
    have hcut := hword blanks [] hbreaks hend
    rwa [List.append_nil] at hcut
  unfold parse?
  rw [String.toList_ofList, String.length_ofList, hcut.run (Nat.lt_succ_self _) .start,
    Progress.start, h.feeds []]
  rfl

theorem Plain.parse?_compactText {j : Json} (h : j.Plain) : parse? j.compactText = some j := by
  have hparse := h.parse?_of_spells h.spells_compact [] nofun
  rwa [List.append_nil] at hparse

/-- The pretty form may be followed by a line break. -/
theorem Plain.parse?_prettyText {j : Json} (h : j.Plain) :
    parse? j.prettyText = some j ∧ parse? (j.prettyText ++ "\n") = some j := by
  have hparse := h.parse?_of_spells (h.spells_pretty 0) [] nofun
  rw [List.append_nil] at hparse
  have hline := h.parse?_of_spells (h.spells_pretty 0) ['\n'] (by simp [isBlank])
  rw [String.ofList_append] at hline
  exact ⟨hparse, hline⟩

end MiningGame.Json
