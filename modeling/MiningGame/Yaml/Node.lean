import MiningGame.Yaml.Scan

/-!
# From tokens to a tree

A text holds at most one document, which is a tree of scalars, sequences and mappings. Aliases stay
in the tree and are looked up in the document. An anchor has the number of different names that were
used before it. So an anchor that takes up an earlier name may share its number with the next one,
and of several anchors with one number the last counts.
-/

namespace MiningGame.Yaml

inductive Node where
  | scalar (tag : Option String) (style : ScalarStyle) (text : String)
  | sequence (tag : Option String) (items : List Node)
  | mapping (tag : Option String) (entries : List (Node × Node))
  | alias (anchor : Nat)
  deriving Inhabited

namespace Node

/-- The node where nothing is written. -/
def blank : Node := scalar none .plain ""

/-- Whether a node is one where nothing is written, possibly tagged. -/
def isBlank : Node → Bool
  | scalar _ .plain "" => true
  | _ => false

end Node

structure Document where
  root : Node
  anchors : List (Nat × Node)

namespace Document

def blank : Document := ⟨.blank, []⟩

/-- The node that a node stands for. -/
def target (d : Document) : Node → Node
  | .alias anchor => (d.anchors.reverse.lookup anchor).getD .blank
  | node => node

end Document

structure Build where
  tokens : List Token
  handles : List (String × TagText)
  names : List (String × Nat)
  /-- The nodes with anchors, by number, in the order in which they start. -/
  anchors : Array (Nat × Node)

/-- A step of building a tree, which fails for tokens that do not fit. -/
abbrev Building (α : Type) := StateT Build Option α

namespace Building

def peek? : Building (Option Token) := do return (← get).tokens.head?

def pop : Building Unit := modify fun b ↦ { b with tokens := b.tokens.drop 1 }

def expect (token : Token) : Building Unit := do
  if (← peek?) = some token then pop else failure

/-- Passes a token if it is the next one, and tells whether it was. -/
def accept (token : Token) : Building Bool := do
  if (← peek?) = some token then
    pop
    return true
  else return false

def isBefore (tokens : List Token) : Building Bool := do
  return (← peek?).any tokens.contains

def anchor? : Building (Option String) := do
  match ← peek? with
  | some (.anchor name) => do
    pop
    return some name
  | _ => return none

def tag? : Building (Option TagText) := do
  match ← peek? with
  | some (.tag "" suffix) => do
    pop
    return some suffix
  | some (.tag handle suffix) => do
    pop
    match (← get).handles.lookup handle with
    | some start => return some (do return (← start) ++ (← suffix))
    | none => failure
  | _ => return none

def properties : Building (Option String × Option TagText) := do
  match ← anchor? with
  | some anchor => return (some anchor, ← tag?)
  | none =>
    let tag ← tag?
    return (← anchor?, tag)

def aliasOf (name : String) : Building Node := do
  match (← get).names.lookup name with
  | some anchor => return .alias anchor
  | none => failure

def named (anchor : Option String) (build : Building Node) : Building Node := do
  match anchor with
  | none => build
  | some name =>
    let b ← get
    let number := b.names.length
    set { b with
      names := (name, number) :: b.names.filter (·.1 != name)
      anchors := b.anchors.push (number, .blank) }
    let node ← build
    modify fun b' ↦ { b' with anchors := b'.anchors.setIfInBounds b.anchors.size (number, node) }
    return node

mutual

def nodeUnless (fuel : Nat) (ends : List Token) (isBlock isIndentless : Bool) : Building Node :=
  match fuel with
  | 0 => failure
  | fuel + 1 => do
    if ← isBefore ends then return .blank else node fuel isBlock isIndentless

/-- Builds a node. Block collections are allowed outside of brackets, and sequences without
indentation in block mappings. -/
def node (fuel : Nat) (isBlock isIndentless : Bool) : Building Node :=
  match fuel with
  | 0 => failure
  | fuel + 1 => do
    match ← peek? with
    | some (.alias name) => do
      pop
      aliasOf name
    | _ => do
      let (anchor, tag) ← properties
      named anchor (content fuel isBlock isIndentless (anchor.isSome || tag.isSome) tag.join)

def content (fuel : Nat) (isBlock isIndentless hasProperties : Bool) (tag : Option String) :
    Building Node :=
  match fuel with
  | 0 => failure
  | fuel + 1 => do
    match ← peek? with
    | some (.scalar style text) => do
      pop
      return .scalar tag style text
    | some .flowSequenceStart => do
      pop
      return .sequence tag (← flowItems fuel true)
    | some .flowMappingStart => do
      pop
      return .mapping tag (← flowFields fuel true)
    | some .blockEntry =>
      if isIndentless then return .sequence tag (← indentlessItems fuel)
      else if hasProperties then return .scalar tag .plain ""
      else failure
    | some .blockSequenceStart =>
      if isBlock then do
        pop
        return .sequence tag (← blockItems fuel)
      else if hasProperties then return .scalar tag .plain ""
      else failure
    | some .blockMappingStart =>
      if isBlock then do
        pop
        return .mapping tag (← blockFields fuel)
      else if hasProperties then return .scalar tag .plain ""
      else failure
    | _ => if hasProperties then return .scalar tag .plain "" else failure

def blockItems (fuel : Nat) : Building (List Node) :=
  match fuel with
  | 0 => failure
  | fuel + 1 => do
    if ← accept .blockEntry then
      let item ← nodeUnless fuel [.blockEntry, .blockEnd] true false
      return item :: (← blockItems fuel)
    else
      expect .blockEnd
      return []

def indentlessItems (fuel : Nat) : Building (List Node) :=
  match fuel with
  | 0 => failure
  | fuel + 1 => do
    if ← accept .blockEntry then
      let item ← nodeUnless fuel [.blockEntry, .key, .value, .blockEnd] true false
      return item :: (← indentlessItems fuel)
    else return []

def blockValue (fuel : Nat) : Building Node :=
  match fuel with
  | 0 => failure
  | fuel + 1 => do
    if ← accept .value then nodeUnless fuel [.key, .value, .blockEnd] true true
    else return .blank

def blockFields (fuel : Nat) : Building (List (Node × Node)) :=
  match fuel with
  | 0 => failure
  | fuel + 1 => do
    if ← accept .key then
      let key ← nodeUnless fuel [.key, .value, .blockEnd] true true
      let value ← blockValue fuel
      return (key, value) :: (← blockFields fuel)
    else
      expect .blockEnd
      return []

/-- Builds the items between brackets. All but the first need a comma before them. -/
def flowItems (fuel : Nat) (isFirst : Bool) : Building (List Node) :=
  match fuel with
  | 0 => failure
  | fuel + 1 => do
    if ← accept .flowSequenceEnd then return []
    if !isFirst then expect .flowEntry
    if ← accept .key then
      let item ← flowPair fuel
      return item :: (← flowItems fuel false)
    else if ← accept .flowSequenceEnd then return []
    else
      let item ← node fuel false false
      return item :: (← flowItems fuel false)

/-- Builds a mapping of one field that stands between brackets without braces. A key that is left
out takes the next token with it. -/
def flowPair (fuel : Nat) : Building Node :=
  match fuel with
  | 0 => failure
  | fuel + 1 => do
    let ends := [.value, .flowEntry, .flowSequenceEnd]
    let isLeftOut ← isBefore ends
    let key ← nodeUnless fuel ends false false
    if isLeftOut then pop
    let value ←
      if ← accept .value then nodeUnless fuel [.flowEntry, .flowSequenceEnd] false false
      else pure .blank
    return .mapping none [(key, value)]

/-- Builds the fields between braces. All but the first need a comma before them; a node without
colon is a key without value. -/
def flowFields (fuel : Nat) (isFirst : Bool) : Building (List (Node × Node)) :=
  match fuel with
  | 0 => failure
  | fuel + 1 => do
    if ← accept .flowMappingEnd then return []
    if !isFirst then expect .flowEntry
    if ← accept .key then
      let key ← nodeUnless fuel [.value, .flowEntry, .flowMappingEnd] false false
      let value ←
        if ← accept .value then nodeUnless fuel [.flowEntry, .flowMappingEnd] false false
        else pure .blank
      return (key, value) :: (← flowFields fuel false)
    else if ← accept .flowMappingEnd then return []
    else
      let key ← node fuel false false
      return (key, .blank) :: (← flowFields fuel false)

end

def directives (hasVersion : Bool) (declared : List (String × TagText)) :
    Nat → Building (List (String × TagText))
  | 0 => failure
  | fuel + 1 => do
    match ← peek? with
    | some (.version major minor) => do
      pop
      if hasVersion || major ≠ 1 || !(minor = 1 || minor = 2) then failure
      directives true declared fuel
    | some (.tagHandle handle start) => do
      pop
      if declared.any (·.1 == handle) then failure
      directives hasVersion ((handle, start) :: declared) fuel
    | _ => return declared

/-- Short forms for tags that need no declaration. -/
def defaultHandles : List (String × TagText) :=
  [("!", some "!"), ("!!", some "tag:yaml.org,2002:")]

def skipEnds : Building Unit :=
  modify fun b ↦ { b with tokens := b.tokens.dropWhile (· = .documentEnd) }

def isBeforeDirective : Building Bool := do
  match ← peek? with
  | some (.version ..) => return true
  | some (.tagHandle ..) => return true
  | _ => return false

/-- Passes what comes before the root of a document, and tells whether there is a mark for its
start. Behind directives there must be one. -/
def documentStart (fuel : Nat) : Building Bool := do
  let hasDirectives ← isBeforeDirective
  let declared ← directives false [] fuel
  modify fun b ↦ { b with handles := declared ++ defaultHandles }
  let isExplicit ← accept .documentStart
  if hasDirectives && !isExplicit then failure
  return isExplicit

/-- Builds the only document of a text; none if there is no document. Behind a mark for its start
a document may be empty. -/
def document? (fuel : Nat) : Building (Option Document) := do
  if (← peek?).isNone then return none
  let isExplicit ← documentStart fuel
  let isEmpty := (← peek?).isNone || (← isBefore [.documentEnd])
  let root ← if isExplicit && isEmpty then pure .blank else node fuel true false
  skipEnds
  if (← peek?).isSome then failure
  return some ⟨root, (← get).anchors.toList⟩

end Building

/-- The only document of a text; the inner option is none if the text has no document. -/
def document? (text : String) : Option (Option Document) := do
  let tokens ← tokens? text.toList
  let fuel := 4 * tokens.length + 4
  return (← (Building.document? fuel).run ⟨tokens, [], [], #[]⟩).1

end MiningGame.Yaml
