import MiningGame.Error
import MiningGame.Region.Grid
import MiningGame.Region.Prospecting
import MiningGame.Yaml.Node

/-!
# Configuration

Settings are read from a YAML mapping of sections. A section or setting that is not given has its
default; settings that nobody knows are ignored, those that are known must be given once at most.
A section with nothing behind its name is empty.
-/

namespace MiningGame

structure ChainConfig where
  genesisHash : String
  genesisHeight : UInt64
  undoDepth : UInt64
  deriving DecidableEq

structure WorldConfig where
  seed : UInt64
  regionSize : UInt32
  deriving DecidableEq

structure MiningConfig where
  rate : UInt64
  deriving DecidableEq

structure ProspectingConfig where
  resources : List Resource
  minAmount : UInt64
  maxAmount : UInt64
  deriving DecidableEq

structure LoggingConfig where
  level : String
  deriving DecidableEq

structure Config where
  chain : ChainConfig
  world : WorldConfig
  mining : MiningConfig
  prospecting : ProspectingConfig
  logging : LoggingConfig
  deriving DecidableEq

inductive ConfigError where
  | unreadable
  | malformed
  | regionSize (cause : WorldError)
  deriving DecidableEq

def ConfigError.message : ConfigError → String
  | unreadable => "failed to read config file"
  | malformed => "failed to parse config YAML"
  | regionSize cause => "invalid world.region_size: " ++ cause.message

namespace Config

def default : Config where
  chain := ⟨"genesis", 0, 100⟩
  world := ⟨42, 10⟩
  mining := ⟨10⟩
  prospecting := ⟨Resource.all, 100, 1000⟩
  logging := ⟨"info"⟩

/-! ### Reading values -/

/-- The number that digits of a base spell; there must be one digit at least. -/
def radixValue? (radix : Nat) (digits : List Char) : Option Nat :=
  if digits.isEmpty then none
  else digits.foldlM (fun n c ↦ do
    let d ← Text.hexDigit? c
    if d < radix then some (n * radix + d) else none) 0

/-- The unsigned number that a plain scalar spells: digits without leading zeros, or hexadecimal,
octal or binary digits behind their sign; a plus may come first. -/
def natural? (text : List Char) : Option Nat :=
  let digits := match text with
    | '+' :: rest => rest
    | _ => text
  match digits with
  | '0' :: 'x' :: rest => radixValue? 16 rest
  | '0' :: 'o' :: rest => radixValue? 8 rest
  | '0' :: 'b' :: rest => radixValue? 2 rest
  | ['0'] => some 0
  | '0' :: _ => none
  | _ => radixValue? 10 digits

/-- Whether a scalar may spell a number: it must be plain, or a literal block that is tagged as an
integer. -/
def maySpellNumber (tag : Option String) (style : Yaml.ScalarStyle) : Bool :=
  style = .plain || (style = .literal && tag = some "tag:yaml.org,2002:int")

def number? (limit : Nat) : Yaml.Node → Option Nat
  | .scalar tag style text => do
    let n ← if maySpellNumber tag style then natural? text.toList else none
    if n < limit then some n else none
  | _ => none

def word? (node : Yaml.Node) : Option UInt64 := (number? UInt64.size node).map UInt64.ofNat

def word32? (node : Yaml.Node) : Option UInt32 := (number? UInt32.size node).map UInt32.ofNat

def text? : Yaml.Node → Option String
  | .scalar _ _ text => some text
  | _ => none

def spellsNull (text : String) : Bool := ["", "~", "null", "Null", "NULL"].contains text

/-- The name that a tag gives behind its mark; tags without mark give none. -/
def tagName? (tag : String) : Option String :=
  match tag.toList with
  | '!' :: name => some (String.ofList name)
  | _ => none

/-- A resource: a scalar with its name, or its name as the tag of a plain scalar without value. -/
def resource? : Yaml.Node → Option Resource
  | .scalar tag style text =>
    match tag.bind tagName? with
    | none => Resource.ofName? text
    | some name => if style = .plain && spellsNull text then Resource.ofName? name else none
  | _ => none

def list? {α : Type} (d : Yaml.Document) (item? : Yaml.Node → Option α) (node : Yaml.Node) :
    Option (List α) :=
  match node with
  | .sequence _ items => items.mapM fun item ↦ item? (d.target item)
  | node => if node.isBlank then some [] else none

def fields? (d : Yaml.Document) (node : Yaml.Node) : Option (List (String × Yaml.Node)) :=
  match node with
  | .mapping _ entries =>
    entries.mapM fun (key, value) ↦ do return (← text? (d.target key), d.target value)
  | node => if node.isBlank then some [] else none

/-- The value of a field, which may be given once at most, or the value in its place. -/
def setting? {α : Type} (fields : List (String × Yaml.Node)) (name : String)
    (read? : Yaml.Node → Option α) (default : α) : Option α :=
  match fields.filter fun f ↦ f.1 == name with
  | [] => some default
  | [(_, node)] => read? node
  | _ => none

/-! ### Reading sections -/

def chain? (d : Yaml.Document) (node : Yaml.Node) : Option ChainConfig := do
  let fields ← fields? d node
  return {
    genesisHash := ← setting? fields "genesis_hash" text? default.chain.genesisHash
    genesisHeight := ← setting? fields "genesis_height" word? default.chain.genesisHeight
    undoDepth := ← setting? fields "undo_depth" word? default.chain.undoDepth }

def world? (d : Yaml.Document) (node : Yaml.Node) : Option WorldConfig := do
  let fields ← fields? d node
  return {
    seed := ← setting? fields "seed" word? default.world.seed
    regionSize := ← setting? fields "region_size" word32? default.world.regionSize }

def mining? (d : Yaml.Document) (node : Yaml.Node) : Option MiningConfig := do
  let fields ← fields? d node
  return { rate := ← setting? fields "rate" word? default.mining.rate }

def prospecting? (d : Yaml.Document) (node : Yaml.Node) : Option ProspectingConfig := do
  let fields ← fields? d node
  return {
    resources := ← setting? fields "resources" (list? d resource?) default.prospecting.resources
    minAmount := ← setting? fields "min_amount" word? default.prospecting.minAmount
    maxAmount := ← setting? fields "max_amount" word? default.prospecting.maxAmount }

def logging? (d : Yaml.Document) (node : Yaml.Node) : Option LoggingConfig := do
  let fields ← fields? d node
  return { level := ← setting? fields "level" text? default.logging.level }

def ofDocument? (d : Yaml.Document) : Option Config := do
  let fields ← fields? d d.root
  return {
    chain := ← setting? fields "chain" (chain? d) default.chain
    world := ← setting? fields "world" (world? d) default.world
    mining := ← setting? fields "mining" (mining? d) default.mining
    prospecting := ← setting? fields "prospecting" (prospecting? d) default.prospecting
    logging := ← setting? fields "logging" (logging? d) default.logging }

/-- Whether a character is white space: controls that move the cursor, and separators. -/
def isSpace (c : Char) : Bool :=
  let n := c.toNat
  (0x9 ≤ n && n ≤ 0xd) || n = 0x20 || n = 0x85 || n = 0xa0 || n = 0x1680 ||
    (0x2000 ≤ n && n ≤ 0x200a) || n = 0x2028 || n = 0x2029 || n = 0x202f || n = 0x205f ||
    n = 0x3000

/-- The settings that a text gives. A text of white space gives none, nor does one without
document. -/
def ofText? (text : String) : Option Config :=
  if text.toList.all isSpace then some default
  else do ofDocument? ((← Yaml.document? text).getD .blank)

def withLevel (c : Config) (level : Option String) : Config :=
  { c with logging := ⟨level.getD c.logging.level⟩ }

/-- The settings that a text gives, with a log level that overrides the one of the text. -/
def parse (text : String) (level : Option String) : Except ConfigError Config :=
  match ofText? text with
  | none => .error .malformed
  | some c => .ok (c.withLevel level)

/-! ### What the settings stand for -/

def grid (c : Config) : Except ConfigError Grid :=
  match Grid.ofEdge? c.world.regionSize with
  | none => .error (.regionSize .invalidRegionSize)
  | some g => .ok g

def prospector (c : Config) : SeededProspector :=
  .between c.world.seed c.prospecting.resources c.prospecting.minAmount c.prospecting.maxAmount

end Config

end MiningGame
