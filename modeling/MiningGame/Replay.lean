import MiningGame.Chain
import MiningGame.Config
import MiningGame.Wire.Announcement
import MiningGame.Wire.Snapshot

/-!
# Replaying a chain

A replay starts from the node that the settings describe, follows all announcements of a file and
answers the snapshot after the last one. The settings count before the announcements: a replay with
bad settings does not look at the announcements at all.
-/

namespace MiningGame

/-- What there is under a file name. -/
inductive FileContent where
  | missing
  /-- It cannot be read, or is no text. -/
  | unreadable
  | text (contents : String)
  deriving DecidableEq

abbrev Files := String → FileContent

/-- Why a replay has no answer. -/
inductive ReplayError where
  | usage
  | config (cause : ConfigError)
  | unreadable (name : String)
  | malformed
  | chain (cause : ChainError)
  deriving DecidableEq

def ReplayError.message : ReplayError → String
  | usage => "usage: lode-engine <updates.json> [config.yaml]"
  | config cause => "config error: " ++ cause.message
  | unreadable name => "failed to read " ++ name
  | malformed => "JSON error"
  | chain cause => "chain error: " ++ cause.message

/-- What the settings make common to all blocks. -/
def Config.rules (c : Config) : BlockRules where
  rate := c.mining.rate
  prospector := c.prospector.prospect
  movement := .walk

/-- The node that the settings describe, before the first block. -/
def Config.node (c : Config) : Except ConfigError Node := do
  return {
    chain := .new c.chain.genesisHeight ⟨c.chain.genesisHash⟩ c.chain.undoDepth
    state := .new (← c.grid) }

/-- Follows announcements in order, up to the first that cannot be followed. -/
def Node.followAll (rules : BlockRules) (announcements : List Announcement) : Following Unit :=
  announcements.forM fun a ↦ applyUpdate rules a.toUpdate

def Node.snapshot (n : Node) (rate : UInt64) : GameStateSnapshot :=
  n.state.snapshot n.chain.tip.height n.chain.tip.hash rate

namespace Replay

def defaultConfigName : String := "lode-config.yaml"

/-- The settings of a file; those of an empty file where there is none. -/
def loadConfig (level : Option String) : FileContent → Except ConfigError Config
  | .missing => Config.parse "" level
  | .unreadable => .error .unreadable
  | .text contents => Config.parse contents level

def loadAnnouncements (name : String) : FileContent → Except ReplayError (List Announcement)
  | .missing => .error (.unreadable name)
  | .unreadable => .error (.unreadable name)
  | .text contents =>
    match Wire.read? contents with
    | none => .error .malformed
    | some announcements => .ok announcements

/-- The snapshot after all announcements of one file were followed under the settings of
another. -/
def snapshot (files : Files) (level : Option String) (announcementsName configName : String) :
    Except ReplayError GameStateSnapshot := do
  let config ← (loadConfig level (files configName)).mapError .config
  let start ← config.node.mapError .config
  let announcements ← loadAnnouncements announcementsName (files announcementsName)
  match start.followAll config.rules announcements with
  | .error e _ => throw (.chain e)
  | .ok _ finish => return finish.snapshot config.mining.rate

/-- The output for a command line: the names of the file with announcements and, if it is not the
default one, of the file with settings. Further arguments are ignored. -/
def output (files : Files) (level : Option String) : List String → Except ReplayError String
  | [] => .error .usage
  | name :: rest => do
    let s ← snapshot files level name (rest.headD defaultConfigName)
    return (Wire.encode s).prettyText ++ "\n"

end Replay

end MiningGame
