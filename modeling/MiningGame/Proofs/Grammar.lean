import Mathlib.Data.List.Nodup
import MiningGame.Move.Document
import MiningGame.Proofs.Merging
import MiningGame.Proofs.RoundTrip

/-!
# The grammar of move documents

A document is read field by field, and what cannot be understood is left out. Said without the
reading: each kind of directive has a field of its own (`Directive.field`), there is a form in which
a value spells a directive (`Directive.SpelledBy`), and the move holds exactly the directives that
are spelled by their fields, in the order of execution (`CharacterMove.ofDocument_grammar`). The
forms only ask which fields an object has, so the order of fields does not matter.
-/

namespace MiningGame

open Wire

/-! ## Documents -/

namespace Json

/-- A document has no flaws, and its objects have one field per name. -/
inductive IsDocument : Json → Prop
  | null : IsDocument .null
  | bool (b : Bool) : IsDocument (.bool b)
  | int (n : Int) : IsDocument (.int n)
  | decimal (spelling : List Char) : IsDocument (.decimal spelling)
  | str (text : String) : IsDocument (.str text)
  | arr {items : List Json} (parts : ∀ j ∈ items, IsDocument j) : IsDocument (.arr items)
  | obj {fields : List (String × Json)} (names : (fields.map (·.1)).Nodup)
      (parts : ∀ f ∈ fields, IsDocument f.2) : IsDocument (.obj fields)

variable {room : Nat} {fields : List (String × Json)} {items : List Json} {name : String}
  {j j' : Json}

theorem documentItems?_isDocument
    (hpart : ∀ j j', document? room j = some j' → j'.IsDocument) {items' : List Json}
    (h : documentItems? room items = some items') : ∀ j ∈ items', j.IsDocument := by
  induction items generalizing items' with
  | nil =>
    cases h
    exact nofun
  | cons j rest ih =>
    obtain ⟨j', hj, h⟩ := Option.bind_eq_some_iff.1 h
    obtain ⟨rest', hrest, h⟩ := Option.bind_eq_some_iff.1 h
    cases h
    exact List.forall_mem_cons.2 ⟨hpart j j' hj, ih hrest⟩

theorem documentFields?_isDocument
    (hpart : ∀ j j', document? room j = some j' → j'.IsDocument) {fields' : List (String × Json)}
    (h : documentFields? room fields = some fields') : (obj fields').IsDocument := by
  induction fields generalizing fields' with
  | nil =>
    cases h
    exact .obj List.nodup_nil nofun
  | cons f rest ih =>
    obtain ⟨name, j⟩ := f
    obtain ⟨j', hj, h⟩ := Option.bind_eq_some_iff.1 h
    obtain ⟨rest', hrest, h⟩ := Option.bind_eq_some_iff.1 h
    have hdoc := ih hrest
    split at h
    · cases h
      exact hdoc
    · next hfresh =>
      cases h
      cases hdoc with
      | obj names parts =>
        refine .obj (List.nodup_cons.2 ⟨?_, names⟩) ?_
        · simpa using hfresh
        · exact List.forall_mem_cons.2 ⟨hpart j j' hj, parts⟩

/-- Values that are accepted as documents are documents. -/
theorem document?_isDocument (h : document? room j = some j') : j'.IsDocument := by
  induction room generalizing j j' with
  | zero =>
    cases j <;> cases h <;> constructor
  | succ room ih =>
    cases j with
    | arr items =>
      obtain ⟨items', hitems, rfl⟩ := Option.map_eq_some_iff.1 h
      exact .arr (documentItems?_isDocument (fun _ _ ↦ ih) hitems)
    | obj fields =>
      obtain ⟨fields', hfields, rfl⟩ := Option.map_eq_some_iff.1 h
      exact documentFields?_isDocument (fun _ _ ↦ ih) hfields
    | _ => cases h <;> constructor

theorem IsDocument.nodup (h : (Json.obj fields).IsDocument) : (fields.map (·.1)).Nodup := by
  cases h with
  | obj names _ => exact names

theorem IsDocument.of_mem (h : (Json.obj fields).IsDocument) (hmem : (name, j) ∈ fields) :
    j.IsDocument := by
  cases h with
  | obj _ parts => exact parts _ hmem

theorem IsDocument.of_mem_arr (h : (Json.arr items).IsDocument) (hmem : j ∈ items) :
    j.IsDocument := by
  cases h with
  | arr parts => exact parts _ hmem

theorem IsDocument.field?_eq_some_iff (h : (Json.obj fields).IsDocument) :
    (Json.obj fields).field? name = some j ↔ (name, j) ∈ fields := by
  have hfield : (Json.obj fields).field? name =
      (fields.reverse.find? fun f ↦ f.1 == name).map (·.2) := rfl
  rw [hfield, Option.map_eq_some_iff]
  constructor
  · rintro ⟨f, hf, rfl⟩
    have hname : f.1 = name := by simpa using List.find?_some hf
    rw [← hname]
    exact List.mem_reverse.1 (List.mem_of_find?_eq_some hf)
  · intro hmem
    cases hf : fields.reverse.find? fun f ↦ f.1 == name with
    | none =>
      have hall := List.find?_eq_none.1 hf (name, j) (List.mem_reverse.2 hmem)
      exact absurd (beq_self_eq_true name) hall
    | some f =>
      have hname : f.1 = name := by simpa using List.find?_some hf
      have hin := List.mem_reverse.1 (List.mem_of_find?_eq_some hf)
      have hsame := List.inj_on_of_nodup_map h.nodup hin hmem hname
      exact ⟨f, rfl, by rw [hsame]⟩

theorem word?_eq_some_iff {n : UInt64} : j.word? = some n ↔ j = .int n.toNat := by
  constructor
  · intro h
    cases j with
    | int m =>
      simp only [word?] at h
      split at h
      · next hrange =>
        have hnat := congrArg UInt64.toNat (Option.some.inj h)
        rw [UInt64.toNat_ofNat_of_lt' hrange.2] at hnat
        rw [← hnat, Int.toNat_of_nonneg hrange.1]
      · cases h
    | _ => cases h
  · rintro rfl
    exact Faithful.decode_encode n

end Json

/-! ## Positions -/

/-- A position is an object with both coordinates, or an array of the two. -/
inductive Coord.SpelledBy (p : Coord) : Json → Prop
  | obj {fields : List (String × Json)} (x : ("x", .int p.x.toInt) ∈ fields)
      (y : ("y", .int p.y.toInt) ∈ fields) : SpelledBy p (.obj fields)
  | arr : SpelledBy p (.arr [.int p.x.toInt, .int p.y.toInt])

section Positions

variable {j : Json}

theorem decode_int32_eq_some_iff {n : Int32} :
    (decode j : Option Int32) = some n ↔ j = .int n.toInt := by
  constructor
  · intro h
    cases j with
    | int m =>
      simp only [decode] at h
      split at h
      · next hrange =>
        have hint := congrArg Int32.toInt (Option.some.inj h)
        rw [Int32.toInt_ofInt_of_le hrange.1 hrange.2] at hint
        rw [← hint]
      · cases h
    | _ => cases h
  · rintro rfl
    exact Faithful.decode_encode n

/-- A coordinate of a document that is an object is read off its field. -/
theorem exists_slot? {fields : List (String × Json)} (h : (Json.obj fields).IsDocument)
    (name : String) : ∃ slot, Json.slot? fields name = some slot ∧
      ∀ n : Int32, slot.required = some n ↔ (name, .int n.toInt) ∈ fields := by
  by_cases hname : name ∈ fields.map (·.1)
  · obtain ⟨⟨name', j⟩, hmem, rfl⟩ := List.mem_map.1 hname
    refine ⟨.given j, Json.slot?_of_mem h.nodup hmem, fun n ↦ ?_⟩
    rw [Slot.required_given, decode_int32_eq_some_iff]
    constructor
    · rintro rfl
      exact hmem
    · intro hmem'
      exact congrArg Prod.snd (List.inj_on_of_nodup_map h.nodup hmem hmem' rfl)
  · refine ⟨.left, Json.slot?_of_not_mem hname, fun n ↦ ⟨nofun, fun hmem ↦ ?_⟩⟩
    exact absurd (List.mem_map_of_mem hmem) hname

theorem decode_coord_eq_some_iff {p : Coord} (h : j.IsDocument) :
    (decode j : Option Coord) = some p ↔ p.SpelledBy j := by
  cases j with
  | obj fields =>
    obtain ⟨x, hx, hx'⟩ := exists_slot? h "x"
    obtain ⟨y, hy, hy'⟩ := exists_slot? h "y"
    have hdecode : (decode (Json.obj fields) : Option Coord) =
        x.required.bind fun a ↦ y.required.bind fun b ↦ some ⟨a, b⟩ := by
      simp only [decode, Json.slots?, List.mapM_cons, List.mapM_nil, hx, hy]
      rfl
    rw [hdecode]
    constructor
    · intro hread
      obtain ⟨a, ha, hread⟩ := Option.bind_eq_some_iff.1 hread
      obtain ⟨b, hb, hread⟩ := Option.bind_eq_some_iff.1 hread
      cases hread
      exact .obj ((hx' a).1 ha) ((hy' b).1 hb)
    · intro hspelled
      cases hspelled with
      | obj ha hb => rw [(hx' p.x).2 ha, (hy' p.y).2 hb]; rfl
  | arr items =>
    rcases items with _ | ⟨a, _ | ⟨b, _ | ⟨c, rest⟩⟩⟩
    · constructor <;> intro hnone <;> cases hnone
    · have hshort : (decode (Json.arr [a]) : Option Coord) =
          (decode a : Option Int32).bind fun _ ↦ none := rfl
      rw [hshort, Option.bind_fun_none]
      constructor <;> intro hnone <;> cases hnone
    · have hpair : (decode (Json.arr [a, b]) : Option Coord) =
          (decode a).bind fun x ↦ (decode b).bind fun y ↦ some ⟨x, y⟩ := rfl
      rw [hpair]
      constructor
      · intro hread
        obtain ⟨x, hx, hread⟩ := Option.bind_eq_some_iff.1 hread
        obtain ⟨y, hy, hread⟩ := Option.bind_eq_some_iff.1 hread
        cases hread
        rw [decode_int32_eq_some_iff.1 hx, decode_int32_eq_some_iff.1 hy]
        exact .arr
      · intro hspelled
        cases hspelled
        rw [decode_int32_eq_some_iff.2 rfl, decode_int32_eq_some_iff.2 rfl]
        rfl
    · have hlong : (decode (Json.arr (a :: b :: c :: rest)) : Option Coord) = none := by
        simp [decode, Json.slots?]
      rw [hlong]
      constructor <;> intro hnone <;> cases hnone
  | _ => constructor <;> intro hnone <;> cases hnone

theorem mapM_decode_eq_some_iff {items : List Json} {places : List Coord}
    (h : ∀ j ∈ items, j.IsDocument) :
    items.mapM decode = some places ↔
      List.Forall₂ (fun p j ↦ Coord.SpelledBy p j) places items := by
  induction items generalizing places with
  | nil =>
    rw [List.forall₂_nil_right_iff, List.mapM_nil]
    exact ⟨fun h ↦ (Option.some.inj h).symm, fun h ↦ congrArg some h.symm⟩
  | cons j rest ih =>
    obtain ⟨hj, hrest⟩ := List.forall_mem_cons.1 h
    rw [List.mapM_cons, List.forall₂_cons_right_iff]
    constructor
    · intro hread
      obtain ⟨p, hp, hread⟩ := Option.bind_eq_some_iff.1 hread
      obtain ⟨ps, hps, hread⟩ := Option.bind_eq_some_iff.1 hread
      cases hread
      exact ⟨p, ps, (decode_coord_eq_some_iff hj).1 hp, (ih hrest).1 hps, rfl⟩
    · rintro ⟨p, ps, hp, hps, rfl⟩
      rw [(decode_coord_eq_some_iff hj).2 hp, (ih hrest).2 hps]
      rfl

end Positions

/-! ## Lists of items -/

/-- An object lists a bundle if the entries of the object under `f` that make sense are those of
the bundle, and there are any. -/
def Bundle.ListedBy (b : Bundle) (j : Json) : Prop :=
  ∃ fields entries, j = .obj fields ∧ ("f", .obj entries) ∈ fields ∧ b ≠ ∅ ∧
    ∀ r n, b.get? r = some n ↔ n ≠ 0 ∧ (r.name, .int n.toNat) ∈ entries

namespace CharacterMove

variable {entries : List (String × Json)} {name : String} {j : Json} {r : Resource} {n : UInt64}
  {b : Bundle}

theorem item?_eq_some_iff :
    item? (name, j) = some (r, n) ↔ name = r.name ∧ j = .int n.toNat ∧ n ≠ 0 := by
  constructor
  · intro h
    obtain ⟨r', hr, h⟩ := Option.bind_eq_some_iff.1 h
    obtain ⟨n', hn, h⟩ := Option.bind_eq_some_iff.1 h
    split at h
    · cases h
    · next hpos =>
      cases h
      exact ⟨(Resource.name_eq_of_ofName? hr).symm, Json.word?_eq_some_iff.1 hn, hpos⟩
  · rintro ⟨rfl, rfl, hpos⟩
    have hword : (Json.int n.toNat).word? = some n := Json.word?_eq_some_iff.2 rfl
    simp [item?, Resource.ofName?_name, hword, hpos]

/-- Each entry that makes sense is listed, and nothing else. -/
theorem get?_items (h : (entries.map (·.1)).Nodup) :
    (Table.ofList (entries.filterMap item?)).get? r = some n ↔
      n ≠ 0 ∧ (r.name, .int n.toNat) ∈ entries := by
  have hdistinct : ((entries.filterMap item?).map (·.1)).Nodup := by
    apply List.pairwise_map.2
    apply (List.pairwise_map.1 h).filterMap
    rintro ⟨name, j⟩ ⟨name', j'⟩ hne ⟨r, n⟩ hr ⟨r', n'⟩ hr' heq
    rw [(item?_eq_some_iff.1 hr).1, (item?_eq_some_iff.1 hr').1] at hne
    exact hne (congrArg Resource.name heq)
  rw [Table.get?_ofList_eq_some_iff hdistinct, List.mem_filterMap]
  constructor
  · rintro ⟨⟨name, j⟩, hmem, hitem⟩
    obtain ⟨rfl, rfl, hpos⟩ := item?_eq_some_iff.1 hitem
    exact ⟨hpos, hmem⟩
  · rintro ⟨hpos, hmem⟩
    exact ⟨_, hmem, item?_eq_some_iff.2 ⟨rfl, rfl, hpos⟩⟩

theorem items?_eq_some_iff (h : j.IsDocument) : items? j = some b ↔ b.ListedBy j := by
  constructor
  · intro hread
    obtain ⟨f, hf, hrest⟩ := Option.bind_eq_some_iff.1 hread
    obtain ⟨entries, hentries, hbundle⟩ := Option.bind_eq_some_iff.1 hrest
    cases j with
    | obj fields =>
      have hmem := h.field?_eq_some_iff.1 hf
      cases f with
      | obj entries' =>
        cases hentries
        dsimp only at hbundle
        split at hbundle
        · cases hbundle
        · next hne =>
          cases hbundle
          refine ⟨fields, entries, rfl, hmem, mt Table.isEmpty_iff.2 hne, fun r n ↦ ?_⟩
          exact get?_items (h.of_mem hmem).nodup
      | _ => cases hentries
    | _ => cases hf
  · rintro ⟨fields, entries, rfl, hmem, hne, hlist⟩
    have hsame : Table.ofList (entries.filterMap item?) = b := by
      apply Table.ext_get?
      intro r
      apply Option.ext
      intro n
      rw [get?_items (h.of_mem hmem).nodup, hlist]
    have hnonempty : b.isEmpty = false := Bool.eq_false_iff.2 (mt Table.isEmpty_iff.1 hne)
    rw [items?, h.field?_eq_some_iff.2 hmem]
    simp [Json.obj?, hsame, hnonempty]

end CharacterMove

/-! ## Directives -/

namespace Directive

/-- The field of a document that a directive stands in. -/
def field : Directive → String
  | waypoints _ => "wp"
  | mine => "mine"
  | pickup _ => "pu"
  | drop _ => "drop"
  | prospect => "prospect"

/-- What a directive looks like in its field. -/
def SpelledBy : Directive → Json → Prop
  | waypoints places, j => ∃ items, j = .arr items ∧
    List.Forall₂ (fun p item ↦ Coord.SpelledBy p item) places items
  | mine, j => j = .obj []
  | pickup items, j => items.ListedBy j
  | drop items, j => items.ListedBy j
  | prospect, j => j = .obj []

theorem field_eq_of_rank_eq {d e : Directive} (h : d.rank = e.rank) : d.field = e.field := by
  cases d <;> cases e <;> first | rfl | cases h

end Directive

namespace CharacterMove

variable {fields fields' : List (String × Json)} {name : String} {j : Json} {d : Directive}

theorem bareDirective?_eq_some_iff {bare : Directive} :
    bareDirective? bare j = some d ↔ d = bare ∧ j = .obj [] := by
  unfold bareDirective?
  split
  · simp [eq_comm]
  · next hne => exact ⟨nofun, fun h ↦ absurd h.2 hne⟩

theorem decode_places_eq_some_iff {places : List Coord} (h : j.IsDocument) :
    (decode j : Option (List Coord)) = some places ↔
      (Directive.waypoints places).SpelledBy j := by
  cases j with
  | arr items =>
    refine (mapM_decode_eq_some_iff fun _ ↦ h.of_mem_arr).trans ?_
    simp [Directive.SpelledBy]
  | _ => exact ⟨nofun, fun ⟨_, harr, _⟩ ↦ nomatch harr⟩

theorem directive?_eq_some_iff (h : j.IsDocument) :
    directive? (name, j) = some d ↔ name = d.field ∧ d.SpelledBy j := by
  unfold directive?
  dsimp only
  split
  · rw [bareDirective?_eq_some_iff]
    cases d <;> simp [Directive.field, Directive.SpelledBy]
  · rw [bareDirective?_eq_some_iff]
    cases d <;> simp [Directive.field, Directive.SpelledBy]
  · rw [Option.map_eq_some_iff]
    simp only [decode_places_eq_some_iff h]
    cases d <;> simp [Directive.field]
  · rw [Option.map_eq_some_iff]
    simp only [items?_eq_some_iff h]
    cases d <;> simp [Directive.field, Directive.SpelledBy]
  · rw [Option.map_eq_some_iff]
    simp only [items?_eq_some_iff h]
    cases d <;> simp [Directive.field, Directive.SpelledBy]
  · next hprospect hmine hway hdrop hpickup =>
    cases d <;> simp_all [Directive.field]

/-- What the fields of an object stand for is all pushed, since no two fields stand for directives
of one kind. -/
theorem mem_ofDocument_iff (h : (Json.obj fields).IsDocument) :
    d ∈ (ofDocument (.obj fields)).directives ↔ ∃ j, (d.field, j) ∈ fields ∧ d.SpelledBy j := by
  have hread : ∀ f ∈ fields, ∀ e, directive? f = some e ↔ f.1 = e.field ∧ e.SpelledBy f.2 :=
    fun f hf _ ↦ directive?_eq_some_iff (h.of_mem hf)
  have hkinds : (fields.filterMap directive?).Pairwise fun d e ↦ d.rank ≠ e.rank := by
    have hnames : fields.Pairwise fun f f' ↦ f.1 ≠ f'.1 := List.pairwise_map.1 h.nodup
    rw [List.pairwise_filterMap]
    refine hnames.imp_of_mem fun hf hf' hne e he e' he' hrank ↦ hne ?_
    rw [((hread _ hf e).1 he).1, ((hread _ hf' e').1 he').1, Directive.field_eq_of_rank_eq hrank]
  change d ∈ (empty.pushAll (fields.filterMap directive?)).directives ↔ _
  rw [mem_pushAll_empty, lastOfKind_iff_mem hkinds, List.mem_filterMap]
  constructor
  · rintro ⟨⟨name, j⟩, hmem, he⟩
    obtain ⟨rfl, hspelled⟩ := (hread _ hmem d).1 he
    exact ⟨j, hmem, hspelled⟩
  · rintro ⟨j, hmem, hspelled⟩
    exact ⟨_, hmem, (hread _ hmem d).2 ⟨rfl, hspelled⟩⟩

theorem canonical_ofDocument (document : Json) : (ofDocument document).Canonical := by
  cases document with
  | obj fields => exact canonical_empty.pushAll _
  | _ => exact canonical_empty

end CharacterMove

theorem Bundle.ListedBy.positive {b : Bundle} {j : Json} (h : b.ListedBy j) : b.Positive := by
  obtain ⟨fields, entries, -, -, -, hlist⟩ := h
  intro r hr
  exact ((hlist r 0).1 hr).1 rfl

/-- A document that is no object is the empty move. An object is the canonical move of exactly those
directives that their fields spell, each of which only depends on its own field, and only positive
amounts are listed. So documents whose fields of these five names agree are the same move. -/
theorem CharacterMove.ofDocument_grammar (document : Json) (h : document.IsDocument) :
    (document.obj? = none → ofDocument document = empty) ∧
      ∀ fields, document = .obj fields →
        (ofDocument document).Canonical ∧
        (∀ d, d ∈ (ofDocument document).directives ↔
          ∃ j, (d.field, j) ∈ fields ∧ d.SpelledBy j) ∧
        (∀ items, .pickup items ∈ (ofDocument document).directives ∨
          .drop items ∈ (ofDocument document).directives → items.Positive) ∧
        ∀ fields', (Json.obj fields').IsDocument →
          (∀ d : Directive, (∀ j, (d.field, j) ∈ fields' ↔ (d.field, j) ∈ fields) →
            (d ∈ (ofDocument (.obj fields')).directives ↔ d ∈ (ofDocument document).directives)) ∧
          ((∀ (d : Directive) j, (d.field, j) ∈ fields' ↔ (d.field, j) ∈ fields) →
            ofDocument (.obj fields') = ofDocument document) := by
  refine ⟨fun hnone ↦ ?_, ?_⟩
  · cases document <;> first | rfl | cases hnone
  · rintro fields rfl
    have hown : ∀ fields', (Json.obj fields').IsDocument → ∀ d : Directive,
        (∀ j, (d.field, j) ∈ fields' ↔ (d.field, j) ∈ fields) →
        (d ∈ (ofDocument (.obj fields')).directives ↔
          d ∈ (ofDocument (.obj fields)).directives) := by
      intro fields' h' d hsame
      rw [mem_ofDocument_iff h, mem_ofDocument_iff h']
      simp only [hsame]
    refine ⟨canonical_ofDocument _, fun d ↦ mem_ofDocument_iff h, ?_, fun fields' h' ↦
      ⟨hown fields' h', fun hsame ↦ ?_⟩⟩
    · rintro items (hitems | hitems)
      · obtain ⟨j, -, hlisted⟩ := (mem_ofDocument_iff h).1 hitems
        exact Bundle.ListedBy.positive hlisted
      · obtain ⟨j, -, hlisted⟩ := (mem_ofDocument_iff h).1 hitems
        exact Bundle.ListedBy.positive hlisted
    · exact (canonical_ofDocument _).ext (canonical_ofDocument _) fun d ↦ hown fields' h' d (hsame d)

namespace Sample

/-- Each field in one of its forms: a way in both forms of positions, items of which one counts,
mining with a value that it must not have, prospecting, and a field that nobody knows. -/
def document : Json :=
  .obj [("drop", .obj [("f", .obj [("raw b", .int 0), ("raw a", .int 5), ("gold", .int 1)])]),
    ("mine", .int 7),
    ("wp", .arr [.arr [.int 1, .int (-2)], .obj [("z", .null), ("y", .int 4), ("x", .int 3)]]),
    ("note", .str "mine"),
    ("prospect", .obj [])]

end Sample

theorem CharacterMove.ofDocument_grammar_sample :
    Sample.document.IsDocument ∧
      ofDocument Sample.document =
        ⟨[.waypoints [⟨1, -2⟩, ⟨3, 4⟩], .drop (Table.empty.insert .rawA 5), .prospect]⟩ ∧
      (ofDocument Sample.document).Canonical ∧
      ∃ j, ("wp", j) ∈ (Sample.document.obj?.getD []) ∧
        (Directive.waypoints [⟨1, -2⟩, ⟨3, 4⟩]).SpelledBy j := by
  have hdoc : Sample.document.IsDocument := by
    have haccepted : Sample.document.document? Json.documentDepth = some Sample.document := by rfl
    exact Json.document?_isDocument haccepted
  have hmove : ofDocument Sample.document =
      ⟨[.waypoints [⟨1, -2⟩, ⟨3, 4⟩], .drop (Table.empty.insert .rawA 5), .prospect]⟩ := by
    decide +kernel
  obtain ⟨hcanonical, hspelled, -⟩ := (ofDocument_grammar Sample.document hdoc).2 _ rfl
  refine ⟨hdoc, hmove, hcanonical, (hspelled (.waypoints [⟨1, -2⟩, ⟨3, 4⟩])).1 ?_⟩
  rw [hmove]
  exact List.mem_cons_self

end MiningGame
