import MiningGame.Proofs.Changes
import MiningGame.Proofs.Parsing
import MiningGame.Replay
import MiningGame.Wire.Block
import MiningGame.Wire.Undo

/-!
# Values come back from their texts

A type is faithful on the wire if its values are written as plain JSON that is read back as the
same value. Lists, pairs and records of faithful types are faithful, and so are all values on the
wire, up to blocks, undo records and snapshots (`read?_write`).
-/

namespace MiningGame

open Wire

/-- Writing a value as JSON loses nothing. No value is written as `null`, which says that there is
none. -/
class Faithful (α : Type) [Wire α] : Prop where
  plain (a : α) : (encode a).Plain
  ne_null (a : α) : encode a ≠ .null
  decode_encode (a : α) : decode (encode a) = some a

attribute [simp] Faithful.plain Faithful.decode_encode

theorem mapM_map_eq_some {α β γ : Type} {f : β → Option γ} {g : α → β} {k : α → γ} {l : List α}
    (h : ∀ a ∈ l, f (g a) = some (k a)) : (l.map g).mapM f = some (l.map k) := by
  induction l with
  | nil => rfl
  | cons a l ih =>
    have hrest := ih fun b hb ↦ h b (List.mem_cons_of_mem a hb)
    simp [List.mapM_cons, h a List.mem_cons_self, hrest]

/-! ## Records -/

namespace Json

variable {fields : List (String × Json)} {name : String} {j : Json}

theorem filter_of_not_mem (h : name ∉ fields.map (·.1)) :
    fields.filter (fun f ↦ f.1 == name) = [] :=
  List.filter_eq_nil_iff.2 fun _ hf heq ↦ h (eq_of_beq heq ▸ List.mem_map_of_mem hf)

theorem filter_of_mem (h : (fields.map (·.1)).Nodup) (hmem : (name, j) ∈ fields) :
    fields.filter (fun f ↦ f.1 == name) = [(name, j)] := by
  induction fields with
  | nil => cases hmem
  | cons f rest ih =>
    obtain ⟨hfresh, hrest⟩ := List.nodup_cons.1 h
    rcases List.mem_cons.1 hmem with rfl | hmem
    · have hnone : rest.filter (fun f ↦ f.1 == name) = [] := filter_of_not_mem hfresh
      simp [hnone]
    · have hne : f.1 ≠ name := fun heq ↦ hfresh (List.mem_map.2 ⟨(name, j), hmem, heq.symm⟩)
      simp [hne, ih hrest hmem]

theorem slot?_of_mem (h : (fields.map (·.1)).Nodup) (hmem : (name, j) ∈ fields) :
    slot? fields name = some (.given j) := by
  rw [slot?, filter_of_mem h hmem]

theorem slot?_of_not_mem (h : name ∉ fields.map (·.1)) : slot? fields name = some .left := by
  rw [slot?, filter_of_not_mem h]

/-- An object says of its fields what they hold, and of others that they were left out. -/
theorem slots?_obj (fields : List (String × Json)) (others : List String)
    (h : (fields.map (·.1) ++ others).Nodup) :
    slots? (fields.map (·.1) ++ others) (.obj fields) =
      some (fields.map (fun f ↦ .given f.2) ++ others.map fun _ ↦ .left) := by
  obtain ⟨hfields, -, hdisjoint⟩ := List.nodup_append.1 h
  have hgiven : (fields.map (·.1)).mapM (slot? fields) =
      some (fields.map fun f ↦ .given f.2) :=
    mapM_map_eq_some fun f hf ↦ slot?_of_mem hfields hf
  have hleft : (others.map id).mapM (slot? fields) = some (others.map fun _ ↦ .left) :=
    mapM_map_eq_some fun name hname ↦ slot?_of_not_mem fun hmem ↦ hdisjoint name hmem name hname rfl
  rw [List.map_id] at hleft
  simp [slots?, List.mapM_append, hgiven, hleft]

/-- A record is read by what its fields hold. -/
theorem bind_slots?_obj {α : Type} {a : α} {read : List Slot → Option α}
    (fields : List (String × Json)) (others : List String)
    (hnames : (fields.map (·.1) ++ others).Nodup)
    (hread : read (fields.map (fun f ↦ .given f.2) ++ others.map fun _ ↦ .left) = some a) :
    (slots? (fields.map (·.1) ++ others) (.obj fields)).bind read = some a := by
  rw [slots?_obj fields others hnames]
  exact hread

end Json

@[simp] theorem Slot.required_given {α : Type} [Wire α] (j : Json) :
    (Slot.given j).required = decode (α := α) j := rfl

/-! ## Basic types -/

instance : Faithful Bool where
  plain b := .bool b
  ne_null _ := nofun
  decode_encode _ := rfl

instance : Faithful String where
  plain text := .str text
  ne_null _ := nofun
  decode_encode _ := rfl

instance : Faithful UInt64 where
  plain n := .int ⟨by omega, by have := n.toNat_lt; omega⟩
  ne_null _ := nofun
  decode_encode n := by
    have hn := n.toNat_lt_size
    simp [decode, encode, Json.word?, hn]

instance : Faithful Int32 where
  plain n := .int ⟨by have := n.le_toInt; omega, by have := n.toInt_lt; omega⟩
  ne_null _ := nofun
  decode_encode n := by
    have hlower := n.le_toInt
    have hupper := n.toInt_lt
    simp only [decode, encode]
    rw [if_pos (by omega), Int32.ofInt_toInt]

instance {α : Type} [Wire α] [Faithful α] : Faithful (List α) where
  plain as := .arr fun j hj ↦ by
    obtain ⟨a, -, rfl⟩ := List.mem_map.1 hj
    exact Faithful.plain a
  ne_null _ := nofun
  decode_encode as := by
    have hall : (as.map encode).mapM decode = some (as.map id) :=
      mapM_map_eq_some fun a _ ↦ Faithful.decode_encode a
    rwa [List.map_id] at hall

instance {α β : Type} [Wire α] [Wire β] [Faithful α] [Faithful β] : Faithful (α × β) where
  plain p := .arr (by simp)
  ne_null _ := nofun
  decode_encode p := by
    change (do return (← decode (encode p.1), ← decode (encode p.2))) = some p
    simp

section Option

variable {α : Type} [Wire α] [Faithful α]

@[simp] theorem plain_option (o : Option α) : (encode o).Plain := by
  cases o with
  | none => exact .null
  | some a => exact Faithful.plain a

@[simp] theorem decode_encode_option (o : Option α) : decode (encode o) = some o := by
  cases o with
  | none => rfl
  | some a =>
    have hvalue : ∀ j : Json, j ≠ .null → decode j = (decode (α := α) j).map some := by
      intro j hj
      cases j with
      | null => exact absurd rfl hj
      | _ => rfl
    have hsome := hvalue (encode a) (Faithful.ne_null a)
    rw [Faithful.decode_encode] at hsome
    exact hsome

end Option

/-! ## Names, positions and records -/

instance : Faithful CharacterId where
  plain id := Faithful.plain id.value
  ne_null id := Faithful.ne_null id.value
  decode_encode id := by
    change (decode (encode id.value)).map CharacterId.mk = some id
    simp

instance : Faithful RegionId where
  plain id := Faithful.plain id.value
  ne_null id := Faithful.ne_null id.value
  decode_encode id := by
    change (decode (encode id.value)).map RegionId.mk = some id
    simp

instance : Faithful BlockHash where
  plain hash := Faithful.plain hash.text
  ne_null hash := Faithful.ne_null hash.text
  decode_encode hash := by
    change (decode (encode hash.text)).map BlockHash.mk = some hash
    simp

instance : Faithful Resource where
  plain r := .str r.name
  ne_null _ := nofun
  decode_encode r := Resource.ofName?_name r

theorem Bundle.foldlM_extendBy (entries : List (Resource × UInt64)) (b : Bundle) :
    (entries.map fun e ↦ (e.1.name, encode e.2)).foldlM Bundle.extendBy b =
      some (entries.foldl (fun b e ↦ b.insert e.1 e.2) b) := by
  induction entries generalizing b with
  | nil => rfl
  | cons e rest ih =>
    have hamount : (encode e.2).word? = some e.2 := Faithful.decode_encode e.2
    have hfirst : b.extendBy (e.1.name, encode e.2) = some (b.insert e.1 e.2) := by
      simp [Bundle.extendBy, Resource.ofName?_name, hamount]
    rw [List.map_cons, List.foldlM_cons, hfirst, List.foldl_cons]
    exact ih (b.insert e.1 e.2)

instance : Faithful Bundle where
  plain b := .obj fun f hf ↦ by
    obtain ⟨e, -, rfl⟩ := List.mem_map.1 hf
    exact Faithful.plain e.2
  ne_null _ := nofun
  decode_encode b := by
    have hfold := Bundle.foldlM_extendBy b.entries ∅
    have hsame : b.entries.foldl (fun b e ↦ b.insert e.1 e.2) ∅ = b := Table.ofList_entries b
    rwa [hsame] at hfold

instance : Faithful Coord where
  plain p := .obj (by simp)
  ne_null _ := nofun
  decode_encode p :=
    Json.bind_slots?_obj [("x", encode p.x), ("y", encode p.y)] [] (by simp) (by simp)

instance : Faithful MiningStatus where
  plain status := by
    cases status with
    | idle => exact .str "Idle"
    | mining region => exact .obj (by simp)
  ne_null status := by
    cases status <;> nofun
  decode_encode status := by
    cases status with
    | idle => rfl
    | mining region =>
      change (do return MiningStatus.mining (← decode (encode region))) = _
      simp

instance : Faithful Prospection where
  plain p := .obj (by simp)
  ne_null _ := nofun
  decode_encode p :=
    Json.bind_slots?_obj [("character", encode p.character), ("height", encode p.height)]
      [] (by simp) (by simp)

instance : Faithful RegionRecord where
  plain r := .obj (by simp)
  ne_null _ := nofun
  decode_encode r :=
    Json.bind_slots?_obj [("resource", encode r.resource),
      ("remaining", encode r.remaining), ("prospection", encode r.prospection)]
      [] (by simp) (by simp [Slot.optional])

/-! ## Moves, blocks and chain updates -/

instance : Faithful Directive where
  plain d := by
    cases d with
    | mine => exact .str "Mine"
    | prospect => exact .str "Prospect"
    | _ => exact .obj (by simp)
  ne_null d := by
    cases d <;> nofun
  decode_encode d := by
    cases d with
    | waypoints places =>
      change (do return Directive.waypoints (← decode (encode places))) = _
      simp
    | mine => rfl
    | pickup items =>
      change (do return Directive.pickup (← decode (encode items))) = _
      simp
    | drop items =>
      change (do return Directive.drop (← decode (encode items))) = _
      simp
    | prospect => rfl

instance : Faithful CharacterMove where
  plain m := .obj (by simp)
  ne_null _ := nofun
  decode_encode m :=
    Json.bind_slots?_obj [("directives", encode m.directives)] [] (by simp) (by simp)

instance : Faithful CreateCharacter where
  plain c := .obj (by simp)
  ne_null _ := nofun
  decode_encode c :=
    Json.bind_slots?_obj [("owner", encode c.owner), ("name", encode c.name),
      ("position", encode c.position)] [] (by simp) (by simp)

instance : Faithful BlockInput where
  plain b := .obj (by simp)
  ne_null _ := nofun
  decode_encode b :=
    Json.bind_slots?_obj [("height", encode b.height), ("hash", encode b.hash),
      ("parent", encode b.parent), ("creates", encode b.creates), ("moves", encode b.moves)]
      [] (by simp) (by simp [Slot.orElse])

instance : Faithful ChainUpdate where
  plain u := .obj (by simp)
  ne_null _ := nofun
  decode_encode u :=
    Json.bind_slots?_obj [("best_hash", encode u.bestHash), ("reorg", encode u.reorg),
      ("blocks", encode u.blocks)] [] (by simp) (by simp)

/-! ## Undo records -/

namespace UndoDelta

theorem decodeTransfer_obj {α : Type} [Wire α] [Faithful α] {subject : String}
    (h : subject ∉ ["resource", "amount"]) (a : α) (resource : Resource) (amount : UInt64) :
    decodeTransfer subject (.obj [(subject, encode a), ("resource", encode resource),
      ("amount", encode amount)]) = some (a, resource, amount) :=
  Json.bind_slots?_obj [(subject, encode a), ("resource", encode resource),
    ("amount", encode amount)] [] (by simpa using h) (by simp)

theorem decodeChange_obj {α : Type} [Wire α] [Faithful α] (id : CharacterId) (previous : α) :
    decodeChange (.obj [("character", encode id), ("previous", encode previous)]) =
      some (id, previous) := by
  rw [decodeChange]
  exact Json.bind_slots?_obj [("character", encode id), ("previous", encode previous)] []
    (by simp) (by simp)

theorem decodeCreated_obj (id : CharacterId) :
    decodeCreated (.obj [("character", encode id)]) = some id := by
  rw [decodeCreated]
  exact Json.bind_slots?_obj [("character", encode id)] [] (by simp) (by simp)

theorem decodeProspected_obj (region : RegionId) (previous : Option RegionRecord)
    (resource : Resource) (amount : UInt64) :
    decodeProspected (.obj [("region", encode region), ("previous", encode previous),
      ("resource", encode resource), ("amount", encode amount)]) =
      some (.regionProspected region previous resource amount) := by
  rw [decodeProspected]
  exact Json.bind_slots?_obj [("region", encode region), ("previous", encode previous),
    ("resource", encode resource), ("amount", encode amount)] [] (by simp)
    (by simp [Slot.optional])

theorem decode_toJson (δ : UndoDelta) : decode δ.toJson = some δ := by
  have hname : ∀ name j, decode (.alternative name j) = ofAlternative? name j := fun _ _ ↦ rfl
  cases δ <;>
    simp [toJson, encodeTransfer, encodeChange, hname, ofAlternative?, decodeCreated_obj,
      decodeChange_obj, decodeTransfer_obj, decodeProspected_obj]

end UndoDelta

instance : Faithful UndoDelta where
  plain δ := by
    cases δ <;> exact .obj (by simp [Json.Plain.obj])
  ne_null δ := by
    cases δ <;> nofun
  decode_encode := UndoDelta.decode_toJson

instance : Faithful BlockUndo where
  plain u := .obj (by simp)
  ne_null _ := nofun
  decode_encode u :=
    Json.bind_slots?_obj [("height", encode u.height), ("deltas", encode u.deltas)]
      [] (by simp) (by simp)

/-! ## Snapshots -/

instance : Faithful MiningView where
  plain v := .obj (by cases v.region <;> simp [encodeField?])
  ne_null _ := nofun
  decode_encode v := by
    obtain ⟨rate, active, region⟩ := v
    cases region with
    | none =>
      exact Json.bind_slots?_obj [("rate", encode rate), ("active", encode active)]
        ["region"] (by simp) (by simp [Slot.optional])
    | some region =>
      exact Json.bind_slots?_obj [("rate", encode rate), ("active", encode active),
        ("region", encode (some region))] [] (by simp) (by simp [Slot.optional])

instance : Faithful CharacterView where
  plain v := .obj (by simp)
  ne_null _ := nofun
  decode_encode v :=
    Json.bind_slots?_obj [("id", encode v.id), ("owner", encode v.owner),
      ("name", encode v.name), ("position", encode v.position), ("waypoints", encode v.waypoints),
      ("mining", encode v.mining), ("inventory", encode v.inventory)] [] (by simp) (by simp)

instance : Faithful ResourceView where
  plain v := .obj (by simp)
  ne_null _ := nofun
  decode_encode v :=
    Json.bind_slots?_obj [("type", encode v.resource), ("amount", encode v.amount)]
      [] (by simp) (by simp)

instance : Faithful RegionView where
  plain v := .obj (by cases v.resource <;> simp [encodeField?])
  ne_null _ := nofun
  decode_encode v := by
    obtain ⟨id, prospection, resource⟩ := v
    cases resource with
    | none =>
      exact Json.bind_slots?_obj [("id", encode id), ("prospection", encode prospection)]
        ["resource"] (by simp) (by simp [Slot.optional])
    | some resource =>
      exact Json.bind_slots?_obj [("id", encode id), ("prospection", encode prospection),
        ("resource", encode (some resource))] [] (by simp) (by simp [Slot.optional])

instance : Faithful GroundLootView where
  plain v := .obj (by simp)
  ne_null _ := nofun
  decode_encode v :=
    Json.bind_slots?_obj [("position", encode v.position), ("inventory", encode v.inventory)]
      [] (by simp) (by simp)

instance : Faithful GameStateSnapshot where
  plain s := .obj (by simp)
  ne_null _ := nofun
  decode_encode s :=
    Json.bind_slots?_obj [("height", encode s.height), ("best_hash", encode s.bestHash),
      ("characters", encode s.characters), ("regions", encode s.regions),
      ("ground_loot", encode s.groundLoot)] [] (by simp) (by simp)

/-! ## Texts -/

theorem read?_eq_some {α : Type} [Wire α] [Faithful α] {text : String} {a : α}
    (h : Json.parse? text = some (encode a)) : read? text = some a := by
  rw [read?, h]
  exact Faithful.decode_encode a

theorem read?_write {α : Type} [Wire α] [Faithful α] (a : α) : read? (write a) = some a :=
  read?_eq_some (Faithful.plain a).parse?_compactText

/-- What a replay prints is read back as the snapshot after the last announcement. -/
theorem Replay.read?_output {files : Files} {level : Option String} {name : String}
    {rest : List String} {text : String} (h : output files level (name :: rest) = .ok text) :
    ∃ s, snapshot files level name (rest.headD defaultConfigName) = .ok s ∧
      read? text = some s := by
  obtain ⟨s, hsnapshot, htext⟩ := bind_eq_ok_iff.1 h
  cases htext
  exact ⟨s, hsnapshot, read?_eq_some (Faithful.plain s).parse?_prettyText.2⟩

/-- Every value is read back from its compact text, and a snapshot from its pretty text too, with
or without the line break after it. -/
theorem texts_read_back :
    (∀ p : Coord, read? (write p) = some p) ∧
    (∀ r : Resource, read? (write r) = some r) ∧
    (∀ b : Bundle, read? (write b) = some b) ∧
    (∀ id : CharacterId, read? (write id) = some id) ∧
    (∀ d : Directive, read? (write d) = some d) ∧
    (∀ m : CharacterMove, read? (write m) = some m) ∧
    (∀ b : BlockInput, read? (write b) = some b) ∧
    (∀ u : ChainUpdate, read? (write u) = some u) ∧
    (∀ status : MiningStatus, read? (write status) = some status) ∧
    (∀ r : RegionRecord, read? (write r) = some r) ∧
    (∀ δ : UndoDelta, read? (write δ) = some δ) ∧
    (∀ u : BlockUndo, read? (write u) = some u) ∧
    (∀ s : GameStateSnapshot, read? (write s) = some s) ∧
    ∀ s : GameStateSnapshot, read? (encode s).prettyText = some s ∧
      read? ((encode s).prettyText ++ "\n") = some s := by
  refine ⟨read?_write, read?_write, read?_write, read?_write, read?_write, read?_write,
    read?_write, read?_write, read?_write, read?_write, read?_write, read?_write, read?_write,
    fun s ↦ ?_⟩
  obtain ⟨hpretty, hline⟩ := (Faithful.plain s).parse?_prettyText
  exact ⟨read?_eq_some hpretty, read?_eq_some hline⟩

end MiningGame
