import MiningGame.Block.Process
import MiningGame.Undo.Journal

/-!
# Following a chain

A chain context knows the tip that a game state belongs to, the hashes of the blocks that can still
be rolled back to, and the undo journal that leads back there. Undo data is kept for the newest
blocks only; the lowest retained height is the horizon.
-/

namespace MiningGame

inductive ChainError where
  | detached (height : UInt64) (hash : BlockHash) (tipHeight : UInt64) (tipHash : BlockHash)
  | block (height : UInt64) (cause : BlockError)
  | journal (cause : JournalError)
  deriving DecidableEq

def ChainError.message : ChainError → String
  | detached height hash tipHeight tipHash =>
    "block " ++ Word.text height ++ " (" ++ hash.text ++ ") does not attach to tip " ++
      Word.text tipHeight ++ " (" ++ tipHash.text ++ ")"
  | block height cause => "block " ++ Word.text height ++ " failed: " ++ cause.message
  | journal cause => "journal error: " ++ cause.message

structure ChainTip where
  height : UInt64
  hash : BlockHash
  deriving DecidableEq

structure ChainContext where
  tip : ChainTip
  hashes : Table UInt64 BlockHash
  journal : UndoJournal
  undoDepth : UInt64
  deriving DecidableEq

namespace ChainContext

def new (height : UInt64) (hash : BlockHash) (undoDepth : UInt64) : ChainContext where
  tip := ⟨height, hash⟩
  hashes := Table.empty.insert height hash
  journal := .empty
  undoDepth := undoDepth

def horizon (c : ChainContext) : UInt64 := c.hashes.firstKey?.getD c.tip.height

def heightOf? (c : ChainContext) (hash : BlockHash) : Option UInt64 :=
  (c.hashes.entries.reverse.find? fun e ↦ e.2 = hash).map (·.1)

/-- Whether a block continues the tip. -/
def continuedBy (c : ChainContext) (b : BlockInput) : Bool :=
  Word.add? c.tip.height 1 = some b.height && b.parent = c.tip.hash

/-- The context without what lies deeper than the undo depth. The hash at the horizon stays, so
that the oldest block that can be taken back still has its parent. -/
def pruned (c : ChainContext) : ChainContext :=
  match Word.sub? c.tip.height c.undoDepth with
  | none => c
  | some horizon =>
    { c with
      journal := (c.journal.prune (Word.addCapped horizon 1)).2
      hashes := c.hashes.filter fun height _ ↦ horizon ≤ height }

def advanced (c : ChainContext) (b : BlockInput) (journal : UndoJournal) : ChainContext :=
  pruned { c with
    journal := journal
    hashes := c.hashes.insert b.height b.hash
    tip := ⟨b.height, b.hash⟩ }

end ChainContext

structure Node where
  chain : ChainContext
  state : GameState
  deriving DecidableEq

namespace Node

/-- A computation on a node. What was done before an error stays done. -/
abbrev Following (α : Type) := EStateM ChainError Node α

def Following.chain : Following ChainContext := fun n ↦ .ok n.chain n

def attach (rules : BlockRules) (b : BlockInput) : Following Unit := fun n ↦
  if !n.chain.continuedBy b then
    .error (.detached b.height b.hash n.chain.tip.height n.chain.tip.hash) n
  else match processBlock rules b n.state with
    | .error e s => .error (.block b.height e) { n with state := s }
    | .ok undo s =>
      match n.chain.journal.record undo with
      | .error e => .error (.journal e) { n with state := s }
      | .ok journal => .ok () ⟨n.chain.advanced b journal, s⟩

def undoTip : Following Unit := fun n ↦
  let height := n.chain.tip.height
  match UndoJournal.undo GameState.revert height (n.chain.journal, n.state) with
  | .error e (journal, s) => .error (.journal e) ⟨{ n.chain with journal := journal }, s⟩
  | .ok _ (journal, s) =>
    let chain := { n.chain with journal := journal, hashes := n.chain.hashes.erase height }
    match Word.sub? height 1 with
    | none => .error (.journal (.undoInconsistency height "no parent height")) ⟨chain, s⟩
    | some parent =>
      match chain.hashes.get? parent with
      | none =>
        .error (.journal (.undoInconsistency parent "parent hash not retained")) ⟨chain, s⟩
      | some hash => .ok () ⟨{ chain with tip := ⟨parent, hash⟩ }, s⟩

def undoTips : Nat → Following Unit
  | 0 => pure ()
  | count + 1 => do
    undoTip
    undoTips count

/-- Takes blocks back until the tip has a height. -/
def rollbackTo (height : UInt64) : Following Unit := do
  let c ← Following.chain
  if c.tip.height < height then
    throw (.journal (.undoInconsistency height
      ("cannot roll back forward from tip " ++ Word.text c.tip.height)))
  else if height < c.horizon then
    throw (.journal (.undoInconsistency height
      ("below undo horizon " ++ Word.text c.horizon)))
  else
    undoTips (c.tip.height.toNat - height.toNat)

/-- Takes blocks back until the newest retained block of a hash is the tip. -/
def rollbackToHash (hash : BlockHash) : Following Unit := do
  let c ← Following.chain
  match c.heightOf? hash with
  | none =>
    throw (.journal (.undoInconsistency c.tip.height
      ("reorg ancestor " ++ hash.text ++ " is unknown or below the undo horizon")))
  | some height => rollbackTo height

/-- Follows an announcement: for a reorganisation back to the common ancestor first, then block by
block up to the first that fails. -/
def applyUpdate (rules : BlockRules) (u : ChainUpdate) : Following Unit := do
  if u.reorg then rollbackToHash u.ancestor
  u.blocks.forM (attach rules)

end Node

end MiningGame
