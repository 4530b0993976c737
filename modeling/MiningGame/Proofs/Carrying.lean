import Mathlib.Data.List.Basic
import Mathlib.Data.List.Pairwise
import MiningGame.Proofs.AllOrNothing
import MiningGame.Proofs.Merging

/-!
# Picking up and dropping

The part of a move that carries units first brings units from the ground to the character, as many
as are asked for and lie there, and then units from the character to the ground, as many as are
asked for and carried. Each of the two meets requests one by one and so moves units from one bundle
to another (`Turn.Pours.forM`). The amounts after both have a closed form
(`Turn.carrying_exchanges`).
-/

namespace MiningGame

/-! ## Units between two bundles -/

namespace Bundle

variable {b b' a a' : Bundle} {r : Resource} {x : UInt64}

/-- The amounts of two bundles fit together into one. -/
def Fits (b b' : Bundle) : Prop :=
  ∀ r, (b.amount r).toNat + (b'.amount r).toNat < UInt64.size

/-- Some units of each resource went from one bundle to another. -/
structure Poured (n : Resource → UInt64) (b b' a a' : Bundle) : Prop where
  given : ∀ r, (a.amount r).toNat + (n r).toNat = (b.amount r).toNat
  received : ∀ r, (a'.amount r).toNat = (b'.amount r).toNat + (n r).toNat

/-- What a list of requests yields of a resource: no more than is there. -/
def yieldOf (requests : List (Resource × UInt64)) (b : Bundle) (r : Resource) : UInt64 :=
  min ((Table.lookUp r requests).getD 0) (b.amount r)

/-- What a bundle of requests yields of a resource. -/
def yield (requests b : Bundle) : Resource → UInt64 := yieldOf requests.entries b

theorem toNat_yieldOf (requests : List (Resource × UInt64)) (b : Bundle) (r : Resource) :
    (yieldOf requests b r).toNat =
      min ((Table.lookUp r requests).getD 0).toNat (b.amount r).toNat :=
  Word.toNat_min _ _

theorem toNat_yield (requests b : Bundle) (r : Resource) :
    (requests.yield b r).toNat = min (requests.amount r).toNat (b.amount r).toNat :=
  toNat_yieldOf requests.entries b r

theorem Fits.pour (h : b.Fits b') {n : UInt64} (hmin : n = min x (b.amount r)) :
    (b.withAmount r (b.amount r - n)).Fits (b'.withAmount r (b'.amount r + n)) := by
  intro r'
  have hr := h r
  have hn : n.toNat = min x.toNat (b.amount r).toNat := by rw [hmin, Word.toNat_min]
  rw [amount_withAmount, amount_withAmount]
  by_cases heq : r' = r
  · rw [if_pos heq, if_pos heq, Word.toNat_sub_of_le (by omega), Word.toNat_add_of_lt (by omega)]
    omega
  · rw [if_neg heq, if_neg heq]
    exact h r'

theorem Poured.nil (b b' : Bundle) : Poured (yieldOf [] b) b b' b b' where
  given := fun r ↦ by simp [toNat_yieldOf, Table.lookUp]
  received := fun r ↦ by simp [toNat_yieldOf, Table.lookUp]

/-- What the first request moves is of no concern to the others, which are for other resources. -/
theorem Poured.cons {e : Resource × UInt64} {rest : List (Resource × UInt64)} {n : UInt64}
    (h : Poured (yieldOf rest (b.withAmount e.1 (b.amount e.1 - n)))
      (b.withAmount e.1 (b.amount e.1 - n)) (b'.withAmount e.1 (b'.amount e.1 + n)) a a')
    (hfits : b.Fits b') (hhead : ∀ e' ∈ rest, rank e.1 < rank e'.1)
    (hmin : n = min e.2 (b.amount e.1)) : Poured (yieldOf (e :: rest) b) b b' a a' := by
  have hlater : Table.lookUp e.1 rest = none := Table.lookUp_eq_none_of_lt hhead
  have hone := hfits e.1
  have hn : n.toNat = min e.2.toNat (b.amount e.1).toNat := by rw [hmin, Word.toNat_min]
  have hleft : (b.amount e.1 - n).toNat = (b.amount e.1).toNat - n.toNat :=
    Word.toNat_sub_of_le (by omega)
  have htotal : (b'.amount e.1 + n).toNat = (b'.amount e.1).toNat + n.toNat :=
    Word.toNat_add_of_lt (by omega)
  have hyield : ∀ r, (yieldOf rest (b.withAmount e.1 (b.amount e.1 - n)) r).toNat =
      if r = e.1 then 0 else (yieldOf (e :: rest) b r).toNat := by
    intro r
    rw [toNat_yieldOf, toNat_yieldOf, amount_withAmount, Table.lookUp]
    by_cases hr : r = e.1
    · rw [if_pos hr, if_pos hr, hr, hlater]
      exact Nat.zero_min _
    · rw [if_neg hr, if_neg hr, if_neg (mt rank_inj.1 hr)]
  have hfirst : (yieldOf (e :: rest) b e.1).toNat = n.toNat := by
    rw [toNat_yieldOf, Table.lookUp, if_pos rfl, hn]
    rfl
  refine ⟨fun r ↦ ?_, fun r ↦ ?_⟩
  · have hr := h.given r
    rw [hyield, amount_withAmount] at hr
    split at hr
    · next heq =>
      rw [heq] at hr ⊢
      omega
    · exact hr
  · have hr := h.received r
    rw [hyield, amount_withAmount] at hr
    split at hr
    · next heq =>
      rw [heq] at hr ⊢
      omega
    · exact hr

/-- A bundle lists its amounts in the fixed order of the resources. -/
theorem entries_eq (b : Bundle) :
    b.entries = Resource.all.filterMap fun r ↦ (b.get? r).map (Prod.mk r) := by
  have hall : Resource.all.Pairwise fun r r' ↦ rank r < rank r' := by decide
  have hlisted : Ascending (Resource.all.filterMap fun r ↦ (b.get? r).map (Prod.mk r)) := by
    refine List.Pairwise.filterMap _ (fun r r' hlt e he e' he' ↦ ?_) hall
    obtain ⟨x, -, rfl⟩ := Option.map_eq_some_iff.1 he
    obtain ⟨x', -, rfl⟩ := Option.map_eq_some_iff.1 he'
    exact hlt
  refine Table.eq_of_mem_iff b.ascending hlisted fun e ↦ ?_
  rw [List.mem_filterMap]
  constructor
  · intro he
    exact ⟨e.1, e.1.mem_all, by rw [Table.get?_eq_some_iff.2 he]; rfl⟩
  · rintro ⟨r, -, he⟩
    obtain ⟨x, hx, rfl⟩ := Option.map_eq_some_iff.1 he
    exact Table.get?_eq_some_iff.1 hx

theorem flatMap_entries {α : Type} (b : Bundle) {g : Resource → UInt64 → List α}
    (hg : ∀ r, g r 0 = []) :
    b.entries.flatMap (fun e ↦ g e.1 e.2) = Resource.all.flatMap fun r ↦ g r (b.amount r) := by
  rw [entries_eq, List.filterMap_eq_flatMap_toList, List.flatMap_assoc]
  congr 1
  funext r
  rw [amount]
  cases b.get? r with
  | none => exact (hg r).symm
  | some x => exact List.append_nil _

end Bundle

/-! ## The operations in closed form -/

section Operations

variable {r : Roster} {l : GroundLoot} {id : CharacterId} {c : Character} {resource : Resource}
  {amount : UInt64}

theorem Roster.credit_eq (found : r.get? id = some c) (hc : c.inventory.Positive)
    (hfits : (c.inventory.amount resource).toNat + amount.toNat < UInt64.size) :
    r.credit id resource amount = .ok
      ⟨r.store id { c with inventory :=
          c.inventory.withAmount resource (c.inventory.amount resource + amount) }, (),
        if amount = 0 then [] else [.inventoryCredited id resource amount]⟩ := by
  by_cases hzero : amount = 0
  · rw [credit, if_pos hzero, if_pos hzero, hzero, UInt64.add_zero, hc.withAmount_amount,
      store_self found]
    rfl
  · have hsum := Word.add?_eq_some_iff.2 (Word.toNat_add_of_lt hfits).symm
    have hadd := Inventory.add_eq_ok hzero hsum
    rw [credit, if_neg hzero, if_neg hzero, find_eq_ok_iff.2 found, ok_bind, hadd]
    rfl

theorem Roster.debit_eq (found : r.get? id = some c) (hc : c.inventory.Positive)
    (henough : amount.toNat ≤ (c.inventory.amount resource).toNat) :
    r.debit id resource amount = .ok
      ⟨r.store id { c with inventory :=
          c.inventory.withAmount resource (c.inventory.amount resource - amount) }, (),
        if amount = 0 then [] else [.inventoryDebited id resource amount]⟩ := by
  by_cases hzero : amount = 0
  · rw [debit, if_pos hzero, if_pos hzero, hzero, UInt64.sub_zero, hc.withAmount_amount,
      store_self found]
    rfl
  · have hremove : Inventory.remove c.inventory resource amount = .ok _ :=
      Inventory.remove_eq_ok (if_pos henough)
    rw [debit, if_neg hzero, if_neg hzero, find_eq_ok_iff.2 found, ok_bind, hremove]
    rfl

theorem GroundLoot.dropAt_eq (hl : l.WellFormed) (position : Coord)
    (hfits : (l.amountAt position resource).toNat + amount.toNat < UInt64.size) :
    l.dropAt position resource amount = .ok
      ⟨l.setPile position ((l.pileAt position).withAmount resource
          (l.amountAt position resource + amount)), (),
        if amount = 0 then [] else [.lootDropped position resource amount]⟩ := by
  by_cases hzero : amount = 0
  · have hsame : (l.pileAt position).withAmount resource (l.amountAt position resource) =
        l.pileAt position := (hl.pileAt position).withAmount_amount resource
    rw [dropAt, if_pos hzero, if_pos hzero, hzero, UInt64.add_zero, hsame, hl.setPile_pileAt]
  · have hsum := Word.add?_eq_some_iff.2 (Word.toNat_add_of_lt hfits).symm
    have hadd := add_eq_ok hzero hsum
    rw [dropAt, if_neg hzero, if_neg hzero, hadd]
    rfl

theorem GroundLoot.pickUp_eq (hl : l.WellFormed) (position : Coord) {requested : UInt64}
    (hmin : amount = min requested (l.amountAt position resource)) :
    l.pickUp position resource requested =
      ⟨l.setPile position ((l.pileAt position).withAmount resource
          (l.amountAt position resource - amount)), amount,
        if amount = 0 then [] else [.lootPickedUp position resource amount]⟩ := by
  have hle : amount.toNat ≤ (l.amountAt position resource).toNat := by
    rw [hmin]
    exact Word.toNat_min_le_right _ _
  rw [pickUp, ← hmin]
  by_cases hzero : amount = 0
  · have hsame : (l.pileAt position).withAmount resource (l.amountAt position resource) =
        l.pileAt position := (hl.pileAt position).withAmount_amount resource
    rw [if_pos hzero, if_pos hzero, hzero, UInt64.sub_zero, hsame, hl.setPile_pileAt]
  · have hremove : l.remove position resource amount = .ok _ := remove_eq_ok (if_pos hle)
    rw [if_neg hzero, if_neg hzero, hremove]

end Operations

/-! ## One request -/

/-- The state in which a character carries one bundle and another one lies under its feet. -/
def GameState.laden (s : GameState) (id : CharacterId) (c : Character) (carried lying : Bundle) :
    GameState :=
  { s with
    roster := s.roster.store id { c with inventory := carried }
    loot := s.loot.setPile c.position lying }

namespace UndoDelta

/-- The deltas of picking up some units, of which there are none if nothing is picked up. -/
def pickedUp (id : CharacterId) (place : Coord) (resource : Resource) (amount : UInt64) :
    List UndoDelta :=
  if amount = 0 then []
  else [.lootPickedUp place resource amount, .inventoryCredited id resource amount]

/-- The deltas of dropping some units, of which there are none if nothing is dropped. -/
def dropped (id : CharacterId) (place : Coord) (resource : Resource) (amount : UInt64) :
    List UndoDelta :=
  if amount = 0 then []
  else [.inventoryDebited id resource amount, .lootDropped place resource amount]

end UndoDelta

namespace Turn

variable {s : GameState} {id : CharacterId} {c : Character} {carried lying : Bundle}
  {undo : BlockUndo} {resource : Resource} {amount : UInt64}

theorem get?_laden :
    (s.laden id c carried lying).roster.get? id = some { c with inventory := carried } := by
  rw [GameState.laden, Roster.get?_store, if_pos rfl]

theorem character_laden : character id ⟨s.laden id c carried lying, undo⟩ =
    .ok { c with inventory := carried } ⟨s.laden id c carried lying, undo⟩ := by
  refine (bind_of_ok (t := state) rfl).trans ?_
  dsimp only
  rw [get?_laden]
  rfl

theorem credit_laden (hcarried : carried.Positive)
    (hfits : (carried.amount resource).toNat + amount.toNat < UInt64.size) :
    inRoster (.credit id resource amount) ⟨s.laden id c carried lying, undo⟩ = .ok ()
      ⟨s.laden id c (carried.withAmount resource (carried.amount resource + amount)) lying,
        undo.append (if amount = 0 then [] else [.inventoryCredited id resource amount])⟩ := by
  have found : (s.laden id c carried lying).roster.get? id = _ := get?_laden
  have hcredit := Roster.credit_eq found hcarried hfits
  rw [inRoster_eq (Recording.credit_eq id resource amount), onRoster]
  dsimp only
  rw [hcredit, GameState.laden, GameState.laden, Roster.store_store]

theorem debit_laden (hcarried : carried.Positive)
    (henough : amount.toNat ≤ (carried.amount resource).toNat) :
    inRoster (.debit id resource amount) ⟨s.laden id c carried lying, undo⟩ = .ok ()
      ⟨s.laden id c (carried.withAmount resource (carried.amount resource - amount)) lying,
        undo.append (if amount = 0 then [] else [.inventoryDebited id resource amount])⟩ := by
  have found : (s.laden id c carried lying).roster.get? id = _ := get?_laden
  have hdebit := Roster.debit_eq found hcarried henough
  rw [inRoster_eq (Recording.debit_eq id resource amount), onRoster]
  dsimp only
  rw [hdebit, GameState.laden, GameState.laden, Roster.store_store]

theorem dropAt_laden (hs : s.WellFormed) (hlying : lying.Positive)
    (hfits : (lying.amount resource).toNat + amount.toNat < UInt64.size) :
    inLoot (.dropAt c.position resource amount) ⟨s.laden id c carried lying, undo⟩ =
      .ok () ⟨s.laden id c carried (lying.withAmount resource (lying.amount resource + amount)),
        undo.append (if amount = 0 then [] else [.lootDropped c.position resource amount])⟩ := by
  have hroom : ((s.loot.setPile c.position lying).amountAt c.position resource).toNat +
      amount.toNat < UInt64.size := by
    rwa [GroundLoot.amountAt_setPile]
  have hdrop := GroundLoot.dropAt_eq (hs.loot.setPile c.position hlying) c.position hroom
  rw [GroundLoot.amountAt_setPile, GroundLoot.pileAt_setPile_self, GroundLoot.setPile_setPile]
    at hdrop
  rw [inLoot_eq (Recording.dropAt_eq c.position resource amount), onLoot?, GameState.laden]
  dsimp only
  rw [hdrop]
  rfl

theorem pickUpAt_laden (hs : s.WellFormed) (hlying : lying.Positive) {requested : UInt64}
    (hmin : amount = min requested (lying.amount resource)) :
    inLoot (.pickUp c.position resource requested) ⟨s.laden id c carried lying, undo⟩ =
      .ok amount ⟨s.laden id c carried (lying.withAmount resource (lying.amount resource - amount)),
        undo.append (if amount = 0 then [] else [.lootPickedUp c.position resource amount])⟩ := by
  rw [← GroundLoot.amountAt_setPile s.loot c.position] at hmin
  have hpick := GroundLoot.pickUp_eq (hs.loot.setPile c.position hlying) c.position hmin
  rw [GroundLoot.amountAt_setPile, GroundLoot.pileAt_setPile_self, GroundLoot.setPile_setPile]
    at hpick
  rw [inLoot_pickUp, onLoot, GameState.laden]
  dsimp only
  rw [hpick]
  rfl

/-! ## Lists of requests -/

/-- A turn that lets as much of a resource as is asked for, and is there, go from one bundle to
another. -/
def Pours (stage : Bundle → Bundle → GameState) (deltas : Resource → UInt64 → List UndoDelta)
    (f : Resource × UInt64 → Turn Unit) : Prop :=
  ∀ b b' e n undo, b.Positive → b'.Positive →
    (b.amount e.1).toNat + (b'.amount e.1).toNat < UInt64.size → n = min e.2 (b.amount e.1) →
    f e ⟨stage b b', undo⟩ = .ok () ⟨stage (b.withAmount e.1 (b.amount e.1 - n))
      (b'.withAmount e.1 (b'.amount e.1 + n)), undo.append (deltas e.1 n)⟩

theorem pickUp_pours (hs : s.WellFormed) (id : CharacterId) (c : Character) :
    Pours (fun lying carried ↦ s.laden id c carried lying) (UndoDelta.pickedUp id c.position)
      fun e ↦ pickUp id e.1 e.2 := by
  intro lying carried e n undo hlying hcarried hfits hmin
  have hn : n.toNat ≤ (lying.amount e.1).toNat := by
    rw [hmin]
    exact Word.toNat_min_le_right _ _
  refine (bind_of_ok character_laden).trans ?_
  refine (bind_of_ok (pickUpAt_laden hs hlying hmin)).trans ?_
  refine (credit_laden hcarried (by omega)).trans ?_
  rw [BlockUndo.append_append, UndoDelta.pickedUp]
  split <;> rfl

theorem drop_pours (hs : s.WellFormed) (id : CharacterId) (c : Character) :
    Pours (s.laden id c) (UndoDelta.dropped id c.position) fun e ↦ drop id e.1 e.2 := by
  intro carried lying e n undo hcarried hlying hfits hmin
  have hn : n.toNat ≤ (carried.amount e.1).toNat := by
    rw [hmin]
    exact Word.toNat_min_le_right _ _
  refine (bind_of_ok character_laden).trans ?_
  dsimp only
  rw [← hmin]
  refine (bind_of_ok (debit_laden hcarried hn)).trans ?_
  refine (dropAt_laden hs hlying (by omega)).trans ?_
  rw [BlockUndo.append_append, UndoDelta.dropped]
  split <;> rfl

/-- Requests for different resources are met one by one. -/
theorem Pours.forM {stage : Bundle → Bundle → GameState}
    {deltas : Resource → UInt64 → List UndoDelta} {f : Resource × UInt64 → Turn Unit}
    (h : Pours stage deltas f) {requests : List (Resource × UInt64)} (hreq : Ascending requests)
    {b b' : Bundle} (hb : b.Positive) (hb' : b'.Positive) (hfits : b.Fits b') (undo : BlockUndo) :
    ∃ a a', a.Positive ∧ a'.Positive ∧ Bundle.Poured (Bundle.yieldOf requests b) b b' a a' ∧
      requests.forM f ⟨stage b b', undo⟩ = .ok () ⟨stage a a', undo.append
        (requests.flatMap fun e ↦ deltas e.1 (min e.2 (b.amount e.1)))⟩ := by
  induction requests generalizing b b' undo with
  | nil =>
    refine ⟨b, b', hb, hb', .nil b b', ?_⟩
    rw [List.flatMap_nil, BlockUndo.append, List.append_nil]
    rfl
  | cons e rest ih =>
    obtain ⟨hhead, hrest⟩ := List.pairwise_cons.1 hreq
    obtain ⟨n, hmin⟩ : ∃ n, n = min e.2 (b.amount e.1) := ⟨_, rfl⟩
    obtain ⟨a, a', ha, ha', hpoured, hrun⟩ := ih hrest (hb.withAmount e.1 (b.amount e.1 - n))
      (hb'.withAmount e.1 (b'.amount e.1 + n)) (hfits.pour hmin) (undo.append (deltas e.1 n))
    have hsame : ∀ e' ∈ rest, deltas e'.1
        (min e'.2 ((b.withAmount e.1 (b.amount e.1 - n)).amount e'.1)) =
        deltas e'.1 (min e'.2 (b.amount e'.1)) := by
      intro e' he'
      have hlt := hhead e' he'
      have hne : e'.1 ≠ e.1 := fun heq ↦ Nat.lt_irrefl _ (heq ▸ hlt)
      rw [Bundle.amount_withAmount, if_neg hne]
    refine ⟨a, a', ha, ha', hpoured.cons hfits hhead hmin, ?_⟩
    refine (bind_of_ok (h b b' e n undo hb hb' (hfits e.1) hmin)).trans (hrun.trans ?_)
    rw [BlockUndo.append_append, List.flatMap_congr hsame, List.flatMap_cons, hmin]

/-- The deltas of a bundle of requests stand in the fixed order of the resources. -/
theorem Pours.bundle {stage : Bundle → Bundle → GameState}
    {deltas : Resource → UInt64 → List UndoDelta} {f : Resource × UInt64 → Turn Unit}
    (h : Pours stage deltas f) (hzero : ∀ r, deltas r 0 = []) (requests : Bundle) {b b' : Bundle}
    (hb : b.Positive) (hb' : b'.Positive) (hfits : b.Fits b') (undo : BlockUndo) :
    ∃ a a', a.Positive ∧ a'.Positive ∧ Bundle.Poured (requests.yield b) b b' a a' ∧
      requests.entries.forM f ⟨stage b b', undo⟩ = .ok () ⟨stage a a',
        undo.append (Resource.all.flatMap fun r ↦ deltas r (requests.yield b r))⟩ := by
  have hnothing : ∀ x : UInt64, min 0 x = 0 := fun x ↦ Word.eq_zero_of_toNat <| by
    rw [Word.toNat_min]
    exact Nat.zero_min _
  have hdeltas := requests.flatMap_entries (g := fun r x ↦ deltas r (min x (b.amount r)))
    fun r ↦ (congrArg (deltas r) (hnothing _)).trans (hzero r)
  obtain ⟨a, a', ha, ha', hpoured, hrun⟩ := h.forM requests.ascending hb hb' hfits undo
  rw [hdeltas] at hrun
  exact ⟨a, a', ha, ha', hpoured, hrun⟩

end Turn

/-! ## The carrying part of a move -/

namespace CharacterMove

variable {m : CharacterMove} {d e : Directive}

/-- The part of a move that carries units: what it picks up, and then what it drops. -/
def carrying (m : CharacterMove) : List Directive :=
  (m.pickup?.map Directive.pickup).toList ++ (m.drop?.map Directive.drop).toList

/-- What a move asks to pick up. -/
def requested (m : CharacterMove) : Bundle := m.pickup?.getD ∅

/-- What a move asks to drop. -/
def offered (m : CharacterMove) : Bundle := m.drop?.getD ∅

theorem Canonical.eq_of_rank (h : m.Canonical) (hd : d ∈ m.directives) (he : e ∈ m.directives)
    (hrank : d.rank = e.rank) : d = e := by
  by_contra hne
  have hsymm : Std.Symm fun d e : Directive ↦ d.rank ≠ e.rank := ⟨fun _ _ ↦ Ne.symm⟩
  have hkinds : m.directives.Pairwise fun d e ↦ d.rank ≠ e.rank := h.imp Nat.ne_of_lt
  exact hkinds.forall hd he hne hrank

/-- The first directive of a kind is the only one. -/
theorem Canonical.findSome?_eq_some_iff {α : Type} (h : m.Canonical)
    {kind? : Directive → Option α} {wrap : α → Directive}
    (hkind : ∀ d x, kind? d = some x ↔ d = wrap x) (hrank : ∀ x y, (wrap x).rank = (wrap y).rank)
    {x : α} : m.directives.findSome? kind? = some x ↔ wrap x ∈ m.directives := by
  have hmem : ∀ x, m.directives.findSome? kind? = some x → wrap x ∈ m.directives := by
    intro x hx
    obtain ⟨d, hd, hdx⟩ := List.exists_of_findSome?_eq_some hx
    exact (hkind d x).1 hdx ▸ hd
  refine ⟨hmem x, fun hd ↦ ?_⟩
  have hself := (hkind (wrap x) x).2 rfl
  cases hfirst : m.directives.findSome? kind? with
  | none =>
    have hnone := List.findSome?_eq_none_iff.1 hfirst (wrap x) hd
    cases hself.symm.trans hnone
  | some y =>
    have heq := h.eq_of_rank hd (hmem y hfirst) (hrank x y)
    rw [heq, (hkind (wrap y) y).2 rfl] at hself
    exact hself

theorem Canonical.pickup?_eq_some_iff (h : m.Canonical) {items : Bundle} :
    m.pickup? = some items ↔ .pickup items ∈ m.directives :=
  h.findSome?_eq_some_iff (fun d _ ↦ by cases d <;> simp) fun _ _ ↦ rfl

theorem Canonical.drop?_eq_some_iff (h : m.Canonical) {items : Bundle} :
    m.drop? = some items ↔ .drop items ∈ m.directives :=
  h.findSome?_eq_some_iff (fun d _ ↦ by cases d <;> simp) fun _ _ ↦ rfl

theorem Canonical.mem_carrying (h : m.Canonical) :
    d ∈ m.carrying ↔ d ∈ m.directives ∧ d.Carries := by
  have hcarrying : d ∈ m.carrying ↔ (∃ items, m.pickup? = some items ∧ .pickup items = d) ∨
      ∃ items, m.drop? = some items ∧ .drop items = d := by
    simp only [carrying, List.mem_append, Option.mem_toList, Option.map_eq_some_iff]
  rw [hcarrying]
  constructor
  · rintro (⟨items, hitems, rfl⟩ | ⟨items, hitems, rfl⟩)
    · exact ⟨h.pickup?_eq_some_iff.1 hitems, items, .inl rfl⟩
    · exact ⟨h.drop?_eq_some_iff.1 hitems, items, .inr rfl⟩
  · rintro ⟨hd, items, rfl | rfl⟩
    · exact .inl ⟨items, h.pickup?_eq_some_iff.2 hd, rfl⟩
    · exact .inr ⟨items, h.drop?_eq_some_iff.2 hd, rfl⟩

theorem ordered_carrying (m : CharacterMove) : Ordered m.carrying := by
  rw [carrying]
  cases m.pickup? <;> cases m.drop? <;> simp [Ordered, Directive.rank]

/-- In the order of execution, what is below a rank comes before the rest. -/
theorem exists_append_of_rank (h : Ordered ds) (k : Nat) :
    ∃ low high, ds = low ++ high ∧ (∀ d ∈ low, d.rank < k) ∧ ∀ d ∈ high, k ≤ d.rank := by
  induction ds with
  | nil => exact ⟨[], [], rfl, List.forall_mem_nil _, List.forall_mem_nil _⟩
  | cons d rest ih =>
    obtain ⟨hhead, hrest⟩ := List.pairwise_cons.1 h
    by_cases hd : d.rank < k
    · obtain ⟨low, high, rfl, hlow, hhigh⟩ := ih hrest
      exact ⟨d :: low, high, rfl, List.forall_mem_cons.2 ⟨hd, hlow⟩, hhigh⟩
    · refine ⟨[], d :: rest, rfl, List.forall_mem_nil _, List.forall_mem_cons.2 ⟨?_, ?_⟩⟩
      · exact Nat.le_of_not_lt hd
      · intro e he
        have hlt := hhead e he
        omega

/-- Of a canonical move, a block carries out directives that carry no units, then the carrying
part, and then again directives that carry no units. -/
theorem Canonical.resolve_carrying (h : m.Canonical) :
    ∃ before after, m.resolve.directives = before ++ m.carrying ++ after ∧
      ∀ d ∈ before ++ after, ¬ d.Carries := by
  have hcarries : ∀ d : Directive, d.Carries ↔ d.rank = 2 ∨ d.rank = 3 := by
    intro d
    cases d <;> simp [Directive.Carries, Directive.rank]
  have hordered : Ordered m.resolve.directives := h.resolve
  obtain ⟨before, rest, hsplit, hbefore, hrest⟩ := exists_append_of_rank hordered 2
  rw [hsplit] at hordered
  obtain ⟨-, hordered, -⟩ := List.pairwise_append.1 hordered
  obtain ⟨carried, after, rfl, hcarried, hafter⟩ := exists_append_of_rank hordered 4
  obtain ⟨hordered, -, -⟩ := List.pairwise_append.1 hordered
  have hmem : ∀ d, d ∈ carried ↔ d ∈ m.carrying := by
    intro d
    rw [h.mem_carrying, hcarries]
    constructor
    · intro hd
      have hlow := hrest d (List.mem_append_left after hd)
      have hhigh := hcarried d hd
      have hres : d ∈ m.resolve.directives := by simp [hsplit, hd]
      exact ⟨(mem_resolve.1 hres).1, by omega⟩
    · rintro ⟨hd, hrank⟩
      have hres : d ∈ m.resolve.directives := by
        refine mem_resolve.2 ⟨hd, ?_, ?_⟩ <;> rintro rfl <;> simp [Directive.rank] at hrank
      rw [hsplit, List.mem_append, List.mem_append] at hres
      rcases hres with hlow | hmid | hhigh
      · have hlt := hbefore d hlow
        omega
      · exact hmid
      · have hge := hafter d hhigh
        omega
  have hmove : CharacterMove.mk carried = ⟨m.carrying⟩ :=
    Canonical.ext hordered (ordered_carrying m) hmem
  have hsame : carried = m.carrying := congrArg directives hmove
  refine ⟨before, after, ?_, fun d hd ↦ ?_⟩
  · rw [hsplit, hsame, List.append_assoc]
  · rw [hcarries]
    rcases List.mem_append.1 hd with hd | hd
    · have hlt := hbefore d hd
      omega
    · have hge := hafter d hd
      omega

end CharacterMove

/-! ## The closed form -/

/-- A character has picked some units up and then dropped some, and nothing else has happened. -/
structure Exchanged (id : CharacterId) (c : Character) (taken given : Resource → UInt64)
    (p p' : Progress) : Prop where
  carried : ∃ inventory : Bundle, inventory.Positive ∧
    p'.state.roster.get? id = some { c with inventory := inventory } ∧
    ∀ r, (inventory.amount r).toNat =
      (c.inventory.amount r).toNat + (taken r).toNat - (given r).toNat
  lying : ∀ r, (p'.state.loot.amountAt c.position r).toNat =
    (p.state.loot.amountAt c.position r).toNat - (taken r).toNat + (given r).toNat
  others : ∀ id' ≠ id, p'.state.roster.get? id' = p.state.roster.get? id'
  elsewhere : ∀ place ≠ c.position,
    p'.state.loot.piles.get? place = p.state.loot.piles.get? place
  nextId : p'.state.roster.nextId = p.state.roster.nextId
  grid : p'.state.grid = p.state.grid
  deposits : p'.state.deposits = p.state.deposits
  /-- No amount of zero is listed, and no pile is empty. -/
  wellFormed : p'.state.WellFormed
  /-- The deltas are those of the transfers of which there was anything, in the order of resources,
  first up and then down. -/
  undo : p'.undo = p.undo.append
    (Resource.all.flatMap (fun r ↦ UndoDelta.pickedUp id c.position r (taken r)) ++
      Resource.all.flatMap (fun r ↦ UndoDelta.dropped id c.position r (given r)))

namespace Turn

variable {id : CharacterId} {c : Character} {p : Progress} {m : CharacterMove}

theorem forM_carrying (prospector : Prospector) (id : CharacterId) (m : CharacterMove) :
    m.carrying.forM (directive prospector id) = (do
      m.requested.entries.forM fun e ↦ pickUp id e.1 e.2
      m.offered.entries.forM fun e ↦ drop id e.1 e.2) := by
  have hlast : ∀ t : Turn Unit, (t >>= fun _ ↦ pure ()) = t := fun t ↦ bind_pure_unit
  rw [CharacterMove.carrying, CharacterMove.requested, CharacterMove.offered]
  cases m.pickup? with
  | none =>
    cases m.drop? with
    | none => rfl
    | some items => exact hlast (directive prospector id (.drop items))
  | some items =>
    cases m.drop? with
    | none => rfl
    | some items' =>
      have hdrop := hlast (directive prospector id (.drop items'))
      exact congrArg (fun t ↦ directive prospector id (.pickup items) >>= fun _ ↦ t) hdrop

theorem laden_self (hs : p.state.WellFormed) (found : p.state.roster.get? id = some c) :
    p.state.laden id c c.inventory (p.state.loot.pileAt c.position) = p.state := by
  rw [GameState.laden, hs.loot.setPile_pileAt]
  change { p.state with roster := p.state.roster.store id c } = p.state
  rw [Roster.store_self found]

theorem exchanged_laden {taken given : Resource → UInt64} {carried₁ lying₁ carried₂ lying₂ : Bundle}
    (hs : p.state.WellFormed) (found : p.state.roster.get? id = some c)
    (hcarried : carried₂.Positive) (hlying : lying₂.Positive)
    (hup : Bundle.Poured taken (p.state.loot.pileAt c.position) c.inventory lying₁ carried₁)
    (hdown : Bundle.Poured given carried₁ lying₁ carried₂ lying₂) :
    Exchanged id c taken given p ⟨p.state.laden id c carried₂ lying₂, p.undo.append
      (Resource.all.flatMap (fun r ↦ UndoDelta.pickedUp id c.position r (taken r)) ++
        Resource.all.flatMap (fun r ↦ UndoDelta.dropped id c.position r (given r)))⟩ where
  carried := by
    refine ⟨carried₂, hcarried, get?_laden, fun r ↦ ?_⟩
    have hreceived := hup.received r
    have hgiven := hdown.given r
    omega
  lying := by
    intro r
    have htaken := hup.given r
    have hreceived := hdown.received r
    rw [GameState.laden, GroundLoot.amountAt_setPile]
    change _ = ((p.state.loot.pileAt c.position).amount r).toNat - _ + _
    omega
  others := by
    intro id' hne
    rw [GameState.laden, Roster.get?_store, if_neg hne]
  elsewhere := by
    intro place hne
    rw [GameState.laden, GroundLoot.setPile_eq]
    dsimp only
    rw [Table.get?_set, if_neg (mt rank_inj.1 hne)]
  nextId := rfl
  grid := rfl
  deposits := rfl
  wellFormed :=
    ⟨hs.deposits, hs.roster.store found rfl hcarried, hs.loot.setPile c.position hlying⟩
  undo := rfl

/-- The carrying part of a move is met from what lies underfoot and what is carried; together these
must fit. Afterwards the character carries, and the ground holds, exactly what was there before with
what was picked up and what was dropped moved over, and all else is as it was. -/
theorem carrying_exchanges (prospector : Prospector) (m : CharacterMove) (hs : p.state.WellFormed)
    (found : p.state.roster.get? id = some c)
    (hfits : ∀ r, (c.inventory.amount r).toNat + (p.state.loot.amountAt c.position r).toNat ≤
      Word.largest.toNat) :
    (m.Canonical → ∃ before after, m.resolve.directives = before ++ m.carrying ++ after ∧
      ∀ d ∈ before ++ after, ¬ d.Carries) ∧
    ∃ taken given p', m.carrying.forM (directive prospector id) p = .ok () p' ∧
      (∀ r, (taken r).toNat =
        min (m.requested.amount r).toNat (p.state.loot.amountAt c.position r).toNat) ∧
      (∀ r, (given r).toNat =
        min (m.offered.amount r).toNat ((c.inventory.amount r).toNat + (taken r).toNat)) ∧
      Exchanged id c taken given p p' := by
  refine ⟨CharacterMove.Canonical.resolve_carrying, ?_⟩
  have hinventory := hs.roster.positive id c found
  have hpile := hs.loot.pileAt c.position
  have hfits₁ : (p.state.loot.pileAt c.position).Fits c.inventory := by
    intro r
    have hr := hfits r
    rw [Word.size_eq]
    change (p.state.loot.amountAt c.position r).toNat + _ < _
    omega
  obtain ⟨lying₁, carried₁, hlying₁, hcarried₁, hup, hrun₁⟩ :=
    (pickUp_pours hs id c).bundle (fun _ ↦ rfl) m.requested hpile hinventory hfits₁ p.undo
  rw [laden_self hs found] at hrun₁
  have hfits₂ : carried₁.Fits lying₁ := by
    intro r
    have hr := hfits₁ r
    have hgiven := hup.given r
    have hreceived := hup.received r
    omega
  obtain ⟨carried₂, lying₂, hcarried₂, hlying₂, hdown, hrun₂⟩ :=
    (drop_pours hs id c).bundle (fun _ ↦ rfl) m.offered hcarried₁ hlying₁ hfits₂ _
  rw [BlockUndo.append_append] at hrun₂
  refine ⟨_, _, _, ?_, fun r ↦ Bundle.toNat_yield .., fun r ↦ ?_,
    exchanged_laden hs found hcarried₂ hlying₂ hup hdown⟩
  · rw [forM_carrying]
    exact (bind_of_ok hrun₁).trans hrun₂
  · rw [Bundle.toNat_yield, hup.received]

/-- Four units lie where a character stands that carries five. It picks up all four and drops
seven. -/
theorem carrying_exchanges_sample :
    let s := { Sample.state with
      loot := ⟨Table.empty.insert ⟨3, 4⟩ (Table.empty.insert .rawA 4)⟩ }
    let m : CharacterMove :=
      ⟨[.pickup (Table.empty.insert .rawA 100), .drop (Table.empty.insert .rawA 7)]⟩
    s.WellFormed ∧ ∃ p', m.carrying.forM (directive Sample.rules.prospector .first) ⟨s, .new 1⟩ =
      .ok () p' ∧ (p'.state.loot.amountAt ⟨3, 4⟩ .rawA).toNat = 7 := by
  intro s m
  have hs : (Progress.mk s (.new 1)).state.WellFormed := by decide
  have found : (Progress.mk s (.new 1)).state.roster.get? .first = some _ := rfl
  obtain ⟨-, taken, given, p', hrun, htaken, hgiven, hexchanged⟩ :=
    carrying_exchanges Sample.rules.prospector m hs found fun r ↦ by cases r <;> decide
  have hlying : (p'.state.loot.amountAt ⟨3, 4⟩ .rawA).toNat =
    4 - (taken .rawA).toNat + (given .rawA).toNat := hexchanged.lying .rawA
  have hup : (taken .rawA).toNat = 4 := htaken .rawA
  have hdown : (given .rawA).toNat = min 7 (5 + (taken .rawA).toNat) := hgiven .rawA
  exact ⟨hs, p', hrun, by omega⟩

end Turn

end MiningGame
