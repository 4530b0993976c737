import MiningGame.Chain
import MiningGame.Proofs.Contract

/-!
# Runs and what survives of them

A run follows a chain by any sequence of calls, failing ones included. Beside the node, a trail
remembers the surviving branch: which blocks stand, and the state the node had when each of them
was the tip. The branch is tracked by what the calls are meant to do, without the hashes and undo
records that the node keeps, so it is what the node can be compared with.
-/

namespace MiningGame

/-- Where a run starts, and how many blocks it can take back. -/
structure Origin where
  grid : Grid
  height : UInt64
  hash : BlockHash
  undoDepth : UInt64

/-- A tip with the state of the game there. -/
structure Place where
  tip : ChainTip
  state : GameState

def Origin.node (o : Origin) : Node := ⟨.new o.height o.hash o.undoDepth, .new o.grid⟩

def Origin.place (o : Origin) : Place := ⟨⟨o.height, o.hash⟩, .new o.grid⟩

def Node.place (n : Node) : Place := ⟨n.chain.tip, n.state⟩

/-- A block of the surviving branch, with the state that the node had when it was the tip. -/
structure Milestone where
  block : BlockInput
  state : GameState

def Milestone.place (m : Milestone) : Place := ⟨⟨m.block.height, m.block.hash⟩, m.state⟩

inductive Call where
  | attach (b : BlockInput)
  | rollback (height : UInt64)
  | update (u : ChainUpdate)

def Call.perform (rules : BlockRules) : Call → Node.Following Unit
  | attach b => Node.attach rules b
  | rollback height => Node.rollbackTo height
  | update u => Node.applyUpdate rules u

/-- A node with the surviving branch, newest block first, and the greatest height that the tip ever
had. -/
structure Trail where
  node : Node
  branch : List Milestone
  peak : Nat

namespace Trail

def start (o : Origin) : Trail := ⟨o.node, [], o.height.toNat⟩

/-- The places of a branch, newest first, the origin being the last. -/
def places (o : Origin) (branch : List Milestone) : List Place :=
  branch.map Milestone.place ++ [o.place]

def top (o : Origin) : List Milestone → Place
  | [] => o.place
  | m :: _ => m.place

/-- The place of the surviving branch at a height. -/
def placeAt? (o : Origin) (t : Trail) (height : UInt64) : Option Place :=
  (places o t.branch).find? fun p ↦ p.tip.height = height

def blocks (t : Trail) : List BlockInput := (t.branch.map Milestone.block).reverse

/-- The least height that may be gone back to: as many blocks below the greatest tip as can be
taken back, but no lower than the origin. -/
def low (o : Origin) (t : Trail) : Nat :=
  max o.height.toNat (t.peak - o.undoDepth.toNat)

/-- The height of the newest block of a hash among those that may be gone back to. -/
def ancestor? (o : Origin) (t : Trail) (hash : BlockHash) : Option UInt64 :=
  ((places o t.branch).find? fun p ↦ t.low o ≤ p.tip.height.toNat ∧ p.tip.hash = hash).map
    fun p ↦ p.tip.height

/-- The branch without what lies above a height. -/
def upTo (branch : List Milestone) (height : UInt64) : List Milestone :=
  branch.filter fun m ↦ m.block.height ≤ height

/-- A branch with blocks that a node attaches one after the other, up to the first that fails. -/
def extended (rules : BlockRules) (n : Node) (branch : List Milestone) :
    List BlockInput → List Milestone
  | [] => branch
  | b :: rest =>
    match Node.attach rules b n with
    | .ok _ n' => extended rules n' (⟨b, n'.state⟩ :: branch) rest
    | .error _ _ => branch

def branchAfter (rules : BlockRules) (o : Origin) (t : Trail) : Call → List Milestone
  | .attach b => extended rules t.node t.branch [b]
  | .rollback height =>
    match Node.rollbackTo height t.node with
    | .ok _ _ => upTo t.branch height
    | .error _ _ => t.branch
  | .update u =>
    if u.reorg then
      match t.ancestor? o u.ancestor with
      | none => t.branch
      | some height =>
        extended rules (ending (Node.rollbackTo height t.node)) (upTo t.branch height) u.blocks
    else extended rules t.node t.branch u.blocks

/-- The trail after one more call, whether the call succeeds or not. -/
def call (rules : BlockRules) (o : Origin) (t : Trail) (c : Call) : Trail :=
  let node := ending (c.perform rules t.node)
  ⟨node, t.branchAfter rules o c, max t.peak node.chain.tip.height.toNat⟩

def run (rules : BlockRules) (o : Origin) (calls : List Call) : Trail :=
  calls.foldl (call rules o) (start o)

end Trail

end MiningGame
