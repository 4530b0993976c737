import Mathlib.Data.List.Sort
import MiningGame.Proofs.Building
import MiningGame.Proofs.RoundTrip

/-!
# Moves as texts list them

A move that is read from a text holds the directives that the text lists, in its order and with
repetitions, while a block carries out what the move merges to. The two are the same exactly if the
text names the kinds in the order of execution, each at most once. Otherwise a question to the move
is answered from the first directive of a kind and the block obeys the last one, so the answers can
be trusted exactly if of each kind the first directive is the last (`CharacterMove.ReadFrom.heard`).
-/

namespace MiningGame

open Wire
open Directive (Kind)

namespace CharacterMove

/-- A directive that a list holds with no other one of its kind before it. -/
def FirstOfKind (ds : List Directive) (d : Directive) : Prop :=
  ∃ before after, ds = before ++ d :: after ∧ ∀ e ∈ before, e.rank ≠ d.rank

/-- Two moves answer all questions alike. -/
structure SameAnswers (m m' : CharacterMove) : Prop where
  waypoints : m.waypoints? = m'.waypoints?
  mines : m.mines = m'.mines
  prospects : m.prospects = m'.prospects
  drop : m.drop? = m'.drop?
  pickup : m.pickup? = m'.pickup?

variable {m m' : CharacterMove} {d e : Directive} {ds : List Directive}

/-! ## The first and the last of each kind -/

theorem firstOfKind_reverse : FirstOfKind ds.reverse d ↔ LastOfKind ds d := by
  constructor
  · rintro ⟨before, after, h, hbefore⟩
    refine ⟨after.reverse, before.reverse, ?_, fun e he ↦ hbefore e (List.mem_reverse.1 he)⟩
    rw [← List.reverse_reverse ds, h]
    simp
  · rintro ⟨before, after, rfl, hafter⟩
    exact ⟨after.reverse, before.reverse, by simp, fun e he ↦ hafter e (List.mem_reverse.1 he)⟩

/-- Where no two directives are of one kind, each is the first of its kind. -/
theorem firstOfKind_iff_mem (h : ds.Pairwise fun d e ↦ d.rank ≠ e.rank) :
    FirstOfKind ds d ↔ d ∈ ds := by
  have hreverse : ds.reverse.Pairwise fun d e ↦ d.rank ≠ e.rank :=
    List.pairwise_reverse.2 (h.imp Ne.symm)
  rw [← List.mem_reverse, ← lastOfKind_iff_mem hreverse, ← firstOfKind_reverse,
    List.reverse_reverse]

/-- A directive that is all of its kind comes first somewhere. -/
theorem mem_iff_firstOfKind (hsole : ∀ e : Directive, e.rank = d.rank → e = d) :
    d ∈ ds ↔ FirstOfKind ds d := by
  constructor
  · intro hd
    obtain ⟨before, after, rfl, hfresh⟩ := List.eq_append_cons_of_mem hd
    exact ⟨before, after, rfl, fun e he hrank ↦ hfresh (hsole e hrank ▸ he)⟩
  · rintro ⟨before, after, rfl, -⟩
    simp

theorem mem_iff_lastOfKind (hsole : ∀ e : Directive, e.rank = d.rank → e = d) :
    d ∈ ds ↔ LastOfKind ds d := by
  rw [← List.mem_reverse, mem_iff_firstOfKind hsole, firstOfKind_reverse]

theorem eq_mine_of_rank (e : Directive) (h : e.rank = Directive.mine.rank) : e = .mine := by
  cases e <;> simp_all [Directive.rank]

theorem eq_prospect_of_rank (e : Directive) (h : e.rank = Directive.prospect.rank) :
    e = .prospect := by
  cases e <;> simp_all [Directive.rank]

/-! ## Questions to a move -/

/-- A question that looks for a directive of a kind finds the first one. -/
theorem findSome?_eq_some_iff_firstOfKind {α : Type} {kind? : Directive → Option α}
    {wrap : α → Directive} (hkind : ∀ d x, kind? d = some x ↔ d = wrap x)
    (hnone : ∀ d x, kind? d = none ↔ d.rank ≠ (wrap x).rank) {x : α} :
    ds.findSome? kind? = some x ↔ FirstOfKind ds (wrap x) := by
  rw [List.findSome?_eq_some_iff]
  constructor
  · rintro ⟨before, d, after, rfl, hd, hbefore⟩
    obtain rfl := (hkind d x).1 hd
    exact ⟨before, after, rfl, fun e he ↦ (hnone e x).1 (hbefore e he)⟩
  · rintro ⟨before, after, rfl, hbefore⟩
    exact ⟨before, wrap x, after, rfl, (hkind _ x).2 rfl, fun e he ↦ (hnone e x).2 (hbefore e he)⟩

theorem waypoints?_eq_some_iff {places : List Coord} :
    m.waypoints? = some places ↔ FirstOfKind m.directives (.waypoints places) :=
  findSome?_eq_some_iff_firstOfKind (fun d _ ↦ by cases d <;> simp) fun d _ ↦ by
    cases d <;> simp [Directive.rank]

theorem drop?_eq_some_iff {items : Bundle} :
    m.drop? = some items ↔ FirstOfKind m.directives (.drop items) :=
  findSome?_eq_some_iff_firstOfKind (fun d _ ↦ by cases d <;> simp) fun d _ ↦ by
    cases d <;> simp [Directive.rank]

theorem pickup?_eq_some_iff {items : Bundle} :
    m.pickup? = some items ↔ FirstOfKind m.directives (.pickup items) :=
  findSome?_eq_some_iff_firstOfKind (fun d _ ↦ by cases d <;> simp) fun d _ ↦ by
    cases d <;> simp [Directive.rank]

theorem mines_iff_firstOfKind : m.mines = true ↔ FirstOfKind m.directives .mine :=
  mines_eq_true_iff.trans (mem_iff_firstOfKind eq_mine_of_rank)

theorem prospects_iff_firstOfKind : m.prospects = true ↔ FirstOfKind m.directives .prospect :=
  prospects_eq_true_iff.trans (mem_iff_firstOfKind eq_prospect_of_rank)

/-- What a move answers is the first directive of each kind. -/
theorem sameAnswers_iff : m.SameAnswers m' ↔
    ∀ d, FirstOfKind m.directives d ↔ FirstOfKind m'.directives d := by
  constructor
  · intro h d
    cases d with
    | waypoints places => rw [← waypoints?_eq_some_iff, h.waypoints, waypoints?_eq_some_iff]
    | mine => rw [← mines_iff_firstOfKind, h.mines, mines_iff_firstOfKind]
    | pickup items => rw [← pickup?_eq_some_iff, h.pickup, pickup?_eq_some_iff]
    | drop items => rw [← drop?_eq_some_iff, h.drop, drop?_eq_some_iff]
    | prospect => rw [← prospects_iff_firstOfKind, h.prospects, prospects_iff_firstOfKind]
  · intro h
    constructor
    · exact Option.ext fun _ ↦ by rw [waypoints?_eq_some_iff, waypoints?_eq_some_iff, h]
    · exact Bool.eq_iff_iff.2 (by rw [mines_iff_firstOfKind, mines_iff_firstOfKind, h])
    · exact Bool.eq_iff_iff.2 (by rw [prospects_iff_firstOfKind, prospects_iff_firstOfKind, h])
    · exact Option.ext fun _ ↦ by rw [drop?_eq_some_iff, drop?_eq_some_iff, h]
    · exact Option.ext fun _ ↦ by rw [pickup?_eq_some_iff, pickup?_eq_some_iff, h]

/-! ## A move on its own -/

/-- How a move that is a character's only one relates to what a block carries out for it. -/
structure Heard (m merged : CharacterMove) : Prop where
  canonical : merged.Canonical
  eq_iff : merged = m ↔ m.Canonical
  mines : m.mines = merged.mines
  prospects : m.prospects = merged.prospects
  sameAnswers_iff : m.SameAnswers merged ↔
    ∀ d, FirstOfKind m.directives d ↔ LastOfKind m.directives d

theorem get?_merge_single (id : CharacterId) (m : CharacterMove) :
    (merge [(id, m)]).get? id = some (empty.pushAll m.directives) :=
  Table.get?_insert_self ..

theorem heard_pushAll (m : CharacterMove) : m.Heard (empty.pushAll m.directives) where
  canonical := canonical_empty.pushAll _
  eq_iff := ⟨fun h ↦ h ▸ canonical_empty.pushAll _, Canonical.pushAll_directives⟩
  mines := by
    rw [Bool.eq_iff_iff, mines_eq_true_iff, mines_eq_true_iff, mem_pushAll_empty,
      mem_iff_lastOfKind eq_mine_of_rank]
  prospects := by
    rw [Bool.eq_iff_iff, prospects_eq_true_iff, prospects_eq_true_iff, mem_pushAll_empty,
      mem_iff_lastOfKind eq_prospect_of_rank]
  sameAnswers_iff := by
    have hmerged : (empty.pushAll m.directives).Canonical := canonical_empty.pushAll _
    rw [CharacterMove.sameAnswers_iff]
    simp only [firstOfKind_iff_mem (hmerged.imp Nat.ne_of_lt), mem_pushAll_empty]

end CharacterMove

/-! ## Parts of a document -/

theorem forall₂_of_mapM {α β : Type} {f : α → Option β} {l : List α} {bs : List β}
    (h : l.mapM f = some bs) : List.Forall₂ (fun a b ↦ f a = some b) l bs := by
  induction l generalizing bs with
  | nil =>
    cases h
    exact .nil
  | cons a rest ih =>
    rw [List.mapM_cons] at h
    obtain ⟨b, hb, h⟩ := Option.bind_eq_some_iff.1 h
    obtain ⟨bs', hrest, h⟩ := Option.bind_eq_some_iff.1 h
    cases h
    exact .cons hb (ih hrest)

theorem exists_of_mapM {α β : Type} {f : α → Option β} {l : List α} {bs : List β}
    (h : l.mapM f = some bs) {b : β} (hb : b ∈ bs) : ∃ a ∈ l, f a = some b := by
  have hall := forall₂_of_mapM h
  clear h
  induction hall with
  | nil => cases hb
  | cons hhead _ ih =>
    rcases List.mem_cons.1 hb with rfl | hb
    · exact ⟨_, List.mem_cons_self, hhead⟩
    · obtain ⟨a, ha, hread⟩ := ih hb
      exact ⟨a, List.mem_cons_of_mem _ ha, hread⟩

/-- The label of a kind on the wire. -/
def Directive.Kind.label : Kind → String
  | waypoints => "Waypoints"
  | mine => "Mine"
  | pickup => "Pickup"
  | drop => "Drop"
  | prospect => "Prospect"

/-- All kinds, in the order of execution. -/
def Directive.Kind.all : List Kind := [waypoints, mine, pickup, drop, prospect]

namespace Json

/-- A value is an item of an array or in a field of an object. -/
inductive PartOf (part : Json) : Json → Prop
  | item {items : List Json} (mem : part ∈ items) : PartOf part (.arr items)
  | field {name : String} {fields : List (String × Json)} (mem : (name, part) ∈ fields) :
      PartOf part (.obj fields)

/-- A value occurs in another, at any depth. -/
abbrev Within : Json → Json → Prop := Relation.ReflTransGen PartOf

/-- The kinds of directives that the document of a move names, in its order. -/
def kindsNamed (j : Json) : List String :=
  match j.slots? ["directives"] with
  | some [.given (.arr items)] => items.filterMap fun item ↦ item.alternative?.map (·.1)
  | _ => []

variable {j v : Json}

theorem partOf_of_slot? {fields : List (String × Json)} {name : String}
    (h : slot? fields name = some (.given v)) : PartOf v (.obj fields) := by
  unfold slot? at h
  split at h
  · cases h
  · next name' j' hfilter =>
    cases h
    exact .field (List.mem_filter.1 (hfilter ▸ List.mem_singleton_self _)).1
  · cases h

/-- What a record gives for a field is a part of it. -/
theorem partOf_of_slots? {names : List String} {slots : List Slot}
    (h : j.slots? names = some slots) (hv : .given v ∈ slots) : PartOf v j := by
  cases j with
  | obj fields =>
    obtain ⟨name, -, hslot⟩ := exists_of_mapM h hv
    exact partOf_of_slot? hslot
  | arr items =>
    simp only [slots?] at h
    split at h
    · cases h
      refine .item ?_
      simpa using hv
    · cases h
  | _ => cases h

end Json

/-! ## Reading a move -/

section Reading

variable {j : Json} {m : CharacterMove}

theorem exists_given_of_required {α : Type} [Wire α] {slot : Slot} {a : α}
    (h : slot.required = some a) : ∃ v, slot = .given v ∧ decode v = some a := by
  cases slot with
  | given v => exact ⟨v, rfl, h⟩
  | left => cases h
  | cutOff => cases h

theorem exists_given_of_orElse {α : Type} [Wire α] {slot : Slot} {as : List α} {a : α}
    (h : slot.orElse [] = some as) (ha : a ∈ as) : ∃ v, slot = .given v ∧ decode v = some as := by
  cases slot with
  | given v => exact ⟨v, rfl, h⟩
  | left =>
    cases h
    cases ha
  | cutOff =>
    cases h
    cases ha

theorem exists_part_of_list {α : Type} [Wire α] {as : List α} {a : α} (h : decode j = some as)
    (ha : a ∈ as) : ∃ part, part.PartOf j ∧ decode part = some a := by
  obtain ⟨items, hitems, hread⟩ := Option.bind_eq_some_iff.1 h
  cases j with
  | arr items' =>
    cases hitems
    obtain ⟨part, hpart, hread⟩ := exists_of_mapM hread ha
    exact ⟨part, .item hpart, hread⟩
  | _ => cases hitems

theorem exists_part_of_pair {α β : Type} [Wire α] [Wire β] {a : α} {b : β}
    (h : decode j = some (a, b)) : ∃ part, part.PartOf j ∧ decode part = some b := by
  simp only [decode] at h
  split at h
  · obtain ⟨a', -, h⟩ := Option.bind_eq_some_iff.1 h
    obtain ⟨b', hb, h⟩ := Option.bind_eq_some_iff.1 h
    cases h
    exact ⟨_, .item (by simp), hb⟩
  · cases h

theorem exists_part_of_block {b : BlockInput} {id : CharacterId} (h : decode j = some b)
    (hm : (id, m) ∈ b.moves) : ∃ part, part.Within j ∧ decode part = some m := by
  obtain ⟨slots, hslots, h⟩ := Option.bind_eq_some_iff.1 h
  split at h
  · next height hash parent creates moves =>
    obtain ⟨_, -, h⟩ := Option.bind_eq_some_iff.1 h
    obtain ⟨_, -, h⟩ := Option.bind_eq_some_iff.1 h
    obtain ⟨_, -, h⟩ := Option.bind_eq_some_iff.1 h
    obtain ⟨_, -, h⟩ := Option.bind_eq_some_iff.1 h
    obtain ⟨all, hall, h⟩ := Option.bind_eq_some_iff.1 h
    cases h
    -- the move is the second half of an entry of the field of moves
    obtain ⟨v, rfl, hv⟩ := exists_given_of_orElse hall hm
    obtain ⟨entry, hentry, hpair⟩ := exists_part_of_list hv hm
    obtain ⟨part, hpart, hmove⟩ := exists_part_of_pair hpair
    have hfield : v.PartOf j := Json.partOf_of_slots? hslots (by simp)
    exact ⟨part, .head hpart (.head hentry (.single hfield)), hmove⟩
  · cases h

theorem exists_part_of_update {u : ChainUpdate} {b : BlockInput} {id : CharacterId}
    (h : decode j = some u) (hb : b ∈ u.blocks) (hm : (id, m) ∈ b.moves) :
    ∃ part, part.Within j ∧ decode part = some m := by
  obtain ⟨slots, hslots, h⟩ := Option.bind_eq_some_iff.1 h
  split at h
  · next bestHash reorg blocks =>
    obtain ⟨_, -, h⟩ := Option.bind_eq_some_iff.1 h
    obtain ⟨_, -, h⟩ := Option.bind_eq_some_iff.1 h
    obtain ⟨all, hall, h⟩ := Option.bind_eq_some_iff.1 h
    cases h
    obtain ⟨v, rfl, hv⟩ := exists_given_of_required hall
    obtain ⟨block, hblock, hread⟩ := exists_part_of_list hv hb
    obtain ⟨part, hpart, hmove⟩ := exists_part_of_block hread hm
    have hfield : v.PartOf j := Json.partOf_of_slots? hslots (by simp)
    exact ⟨part, hpart.tail hblock |>.tail hfield, hmove⟩
  · cases h

theorem alternative?_of_decode {d : Directive} (h : decode j = some d) :
    ∃ payload, j.alternative? = some (d.kind.label, payload) := by
  obtain ⟨alternative, halternative, h⟩ := Option.bind_eq_some_iff.1 h
  split at h
  · obtain ⟨places, -, h⟩ := Option.bind_eq_some_iff.1 h
    cases h
    exact ⟨_, halternative⟩
  · split at h <;> cases h
    exact ⟨_, halternative⟩
  · obtain ⟨items, -, h⟩ := Option.bind_eq_some_iff.1 h
    cases h
    exact ⟨_, halternative⟩
  · obtain ⟨items, -, h⟩ := Option.bind_eq_some_iff.1 h
    cases h
    exact ⟨_, halternative⟩
  · split at h <;> cases h
    exact ⟨_, halternative⟩
  · cases h

theorem labels_of_mapM {items : List Json} {ds : List Directive}
    (h : items.mapM decode = some ds) :
    items.filterMap (fun item ↦ item.alternative?.map (·.1)) = ds.map fun d ↦ d.kind.label := by
  have hall := forall₂_of_mapM h
  clear h
  induction hall with
  | nil => rfl
  | cons hitem _ ih =>
    obtain ⟨payload, halternative⟩ := alternative?_of_decode hitem
    simp [halternative, ih]

/-- The directives of a move are of the kinds that its document names. -/
theorem kindsNamed_of_decode (h : decode j = some m) :
    j.kindsNamed = m.directives.map fun d ↦ d.kind.label := by
  obtain ⟨slots, hslots, h⟩ := Option.bind_eq_some_iff.1 h
  split at h
  · obtain ⟨ds, hds, h⟩ := Option.bind_eq_some_iff.1 h
    cases h
    obtain ⟨v, rfl, hv⟩ := exists_given_of_required hds
    obtain ⟨items, hitems, hread⟩ := Option.bind_eq_some_iff.1 hv
    rw [← labels_of_mapM hread, Json.kindsNamed, hslots]
    cases v with
    | arr items' =>
      cases hitems
      rfl
    | _ => cases hitems
  · cases h

end Reading

namespace CharacterMove

variable {m : CharacterMove}

theorem label_injective : Function.Injective Kind.label := by
  intro a b
  cases a <;> cases b <;> decide

theorem ascending_iff_sublist {ks : List Kind} :
    (ks.Pairwise fun a b ↦ rank a < rank b) ↔ ks.Sublist Kind.all := by
  constructor
  · intro h
    have hantisymm : Std.Antisymm fun a b : Kind ↦ rank a < rank b :=
      ⟨fun _ _ hlt hgt ↦ absurd hlt (Nat.lt_asymm hgt)⟩
    have hnodup : ks.Nodup := h.imp fun hlt heq ↦ Nat.ne_of_lt hlt (congrArg rank heq)
    have hall : ks ⊆ Kind.all := fun k _ ↦ by cases k <;> decide
    exact List.sublist_of_subperm_of_pairwise (List.subperm_of_subset hnodup hall) h (by decide)
  · exact fun h ↦ List.Pairwise.sublist h (by decide)

/-- The kinds of a canonical move are some of all kinds, in their order. -/
theorem canonical_iff_sublist : m.Canonical ↔
    (m.directives.map fun d ↦ d.kind.label).Sublist (Kind.all.map Kind.label) := by
  have hkinds : m.Canonical ↔ (m.directives.map Directive.kind).Sublist Kind.all := by
    rw [← ascending_iff_sublist, List.pairwise_map]
    simp only [Directive.rank_kind]
    rfl
  have hlabels : (m.directives.map fun d ↦ d.kind.label) =
      (m.directives.map Directive.kind).map Kind.label := by simp
  rw [hkinds, hlabels, List.sublist_map_iff]
  constructor
  · exact fun h ↦ ⟨_, h, rfl⟩
  · rintro ⟨ks, hsublist, hmap⟩
    rwa [List.map_injective_iff.2 label_injective hmap]

/-- A text is read as a move, or as a block or an update of the chain with the move in it. -/
inductive ReadFrom (m : CharacterMove) (text : String) : Prop
  | alone (h : read? text = some m)
  | block {b : BlockInput} {id : CharacterId} (h : read? text = some b) (hm : (id, m) ∈ b.moves)
  | update {u : ChainUpdate} {b : BlockInput} {id : CharacterId} (h : read? text = some u)
      (hb : b ∈ u.blocks) (hm : (id, m) ∈ b.moves)

theorem ReadFrom.exists_part {text : String} (h : m.ReadFrom text) : ∃ document part,
    Json.parse? text = some document ∧ part.Within document ∧ decode part = some m := by
  cases h with
  | alone h =>
    obtain ⟨document, hparse, hmove⟩ := Option.bind_eq_some_iff.1 h
    exact ⟨document, document, hparse, .refl, hmove⟩
  | block h hm =>
    obtain ⟨document, hparse, hblock⟩ := Option.bind_eq_some_iff.1 h
    obtain ⟨part, hpart, hmove⟩ := exists_part_of_block hblock hm
    exact ⟨document, part, hparse, hpart, hmove⟩
  | update h hb hm =>
    obtain ⟨document, hparse, hupdate⟩ := Option.bind_eq_some_iff.1 h
    obtain ⟨part, hpart, hmove⟩ := exists_part_of_update hupdate hb hm
    exact ⟨document, part, hparse, hpart, hmove⟩

/-- A move that is read from a text, alone or within a block or an update, merges to a canonical
move. It is that move itself exactly if it is canonical, which is exactly if the part of the text
that spells it names the kinds in the order of execution and none twice. Otherwise the two still
agree on mining and prospecting, and they answer all questions alike exactly if of each kind the
first directive that the text lists is the last. -/
theorem ReadFrom.heard {text : String} (h : m.ReadFrom text) (id : CharacterId) :
    (∃ document part, Json.parse? text = some document ∧ part.Within document ∧
      decode part = some m ∧
      (m.Canonical ↔ part.kindsNamed.Sublist (Kind.all.map Kind.label))) ∧
    ∃ merged, (merge [(id, m)]).get? id = some merged ∧ m.Heard merged := by
  obtain ⟨document, part, hparse, hwithin, hmove⟩ := h.exists_part
  refine ⟨⟨document, part, hparse, hwithin, hmove, ?_⟩, _, get?_merge_single id m, heard_pushAll m⟩
  rw [kindsNamed_of_decode hmove]
  exact canonical_iff_sublist

end CharacterMove

namespace Sample

/-- A move with two ways: to stay in place, and to go. -/
def twoWays : CharacterMove := ⟨[.waypoints [], .waypoints [⟨1, 1⟩]]⟩

def twoWaysText : String :=
  "\x7b\"directives\":[\x7b\"Waypoints\":[]\x7d," ++
    "\x7b\"Waypoints\":[\x7b\"x\":1,\"y\":1\x7d]\x7d]\x7d"

/-- An update with a block in which a character makes this move. -/
def twoWaysUpdate : ChainUpdate :=
  ⟨⟨"a"⟩, false, [⟨1, ⟨"a"⟩, ⟨"g"⟩, [], [(.first, twoWays)]⟩]⟩

end Sample

theorem CharacterMove.ReadFrom.heard_sample :
    Sample.twoWays.ReadFrom (write Sample.twoWaysUpdate) ∧
      ∃ merged, (merge [(.first, Sample.twoWays)]).get? .first = some merged ∧
        merged.Canonical ∧ Sample.twoWays.mines = merged.mines ∧ merged ≠ Sample.twoWays := by
  have hfrom : Sample.twoWays.ReadFrom (write Sample.twoWaysUpdate) :=
    .update (read?_write Sample.twoWaysUpdate) List.mem_cons_self List.mem_cons_self
  obtain ⟨-, merged, hmerged, hheard⟩ := ReadFrom.heard hfrom .first
  refine ⟨hfrom, merged, hmerged, hheard.canonical, hheard.mines, fun heq ↦ ?_⟩
  exact absurd (hheard.eq_iff.1 heq) (by unfold Canonical; decide)

/-- A text with two ways is read as a move that is not canonical. Asked for its way it answers the
first, and a block carries out the second. -/
theorem CharacterMove.two_ways_read :
    (read? Sample.twoWaysText : Option CharacterMove) = some Sample.twoWays ∧
      ¬ Sample.twoWays.Canonical ∧ Sample.twoWays.waypoints? = some [] ∧
      ((merge [(.first, Sample.twoWays)]).get? .first).bind waypoints? = some [⟨1, 1⟩] := by
  refine ⟨by decide +kernel, ?_, rfl, by decide⟩
  unfold Canonical
  decide

end MiningGame
