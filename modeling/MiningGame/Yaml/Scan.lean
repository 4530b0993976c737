import MiningGame.Yaml.Token

/-!
# From text to tokens

What is the key of a mapping shows only at the colon behind it. So the places where a key may have
started are remembered, one per level of brackets, and the tokens that announce a key and the start
of its mapping are put in front of it when its colon comes. A key must be on one line, and at most
1024 bytes long.
-/

namespace MiningGame.Yaml

structure KeyStart where
  token : Nat
  isRequired : Bool
  cursor : Cursor

structure Scan where
  cursor : Cursor
  tokens : Array Token
  /-- The indentation of the innermost block collection. -/
  indent : Int
  outer : List Int
  /-- Where a key may have started, for every level of brackets, innermost first. -/
  keys : List (Option KeyStart)
  keyAllowed : Bool

namespace Scan

def start (text : List Char) : Scan := ⟨.start text, #[], -1, [], [none], true⟩

def isFlow (s : Scan) : Bool := 1 < s.keys.length

def push (s : Scan) (token : Token) : Scan := { s with tokens := s.tokens.push token }

/-- Puts a token in front of those that follow a number of tokens. -/
def insertAt (s : Scan) (place : Nat) (token : Token) : Scan :=
  let tokens := s.tokens.toList
  { s with tokens := (tokens.take place ++ token :: tokens.drop place).toArray }

def setKey (s : Scan) (key : Option KeyStart) : Scan := { s with keys := key :: s.keys.drop 1 }

def key? (s : Scan) : Option KeyStart := s.keys.head?.join

/-- Gives up the key on the innermost level, which must not be required. -/
def dropKey? (s : Scan) : Option Scan :=
  if s.key?.any (·.isRequired) then none else some (s.setKey none)

def saveKey? (s : Scan) : Option Scan :=
  if !s.keyAllowed then some s
  else do
    let s ← s.dropKey?
    let isRequired := !s.isFlow && s.indent = s.cursor.column
    return s.setKey (some ⟨s.tokens.size, isRequired, s.cursor⟩)

def canEnd (s : Scan) (key : KeyStart) : Bool :=
  key.cursor.line = s.cursor.line && s.cursor.index ≤ key.cursor.index + 1024

/-- Gives up all keys that are too long; none of them may be required. -/
def dropStaleKeys? (s : Scan) : Option Scan := do
  let keys ← s.keys.mapM fun
    | none => some none
    | some key =>
      if s.canEnd key then some (some key)
      else if key.isRequired then none
      else some none
  return { s with keys := keys }

/-- Opens a block collection if a column is further right than the innermost one. -/
def indentTo (s : Scan) (column place : Nat) (token : Token) : Scan :=
  if !s.isFlow && s.indent < column then
    { s.insertAt place token with indent := column, outer := s.indent :: s.outer }
  else s

/-- Closes block collections that are further right than a column. -/
def dedentList (column : Int) : Int → List Int → Array Token → Int × List Int × Array Token
  | indent, [], tokens => (indent, [], tokens)
  | indent, o :: outer, tokens =>
    if column < indent then dedentList column o outer (tokens.push .blockEnd)
    else (indent, o :: outer, tokens)

def dedentTo (s : Scan) (column : Int) : Scan :=
  if s.isFlow then s
  else
    let (indent, outer, tokens) := dedentList column s.indent s.outer s.tokens
    { s with indent := indent, outer := outer, tokens := tokens }

/-- Skips blanks, comments and line breaks, and byte order marks at the start of lines. Tabs do not
count as blanks where they could be taken for indentation. Outside of brackets a key may start on a
new line. -/
def skipBlanks : Nat → Scan → Scan
  | 0, s => s
  | fuel + 1, s =>
    let tabsAllowed := s.isFlow || !s.keyAllowed
    let c := s.cursor.skipByteOrderMark
    let c := (c.skipWhile fun ch ↦ ch = ' ' || (tabsAllowed && ch = '\t')).skipComment
    match c.lineBreak? with
    | none => { s with cursor := c }
    | some (_, c') =>
      skipBlanks fuel { s with cursor := c', keyAllowed := !s.isFlow || s.keyAllowed }

def toNextToken (s : Scan) : Scan := skipBlanks (s.cursor.rest.length + 1) s

/-- A token of some characters after which no key may start. -/
def mark (s : Scan) (token : Token) (length : Nat) (keyAllowed : Bool) : Scan :=
  { s.push token with cursor := s.cursor.skip length, keyAllowed := keyAllowed }

/-- A token between documents: all block collections end. -/
def documentMark? (s : Scan) (token : Token) : Option Scan := do
  return (← (s.dedentTo (-1)).dropKey?).mark token 3 false

def directive? (s : Scan) : Option Scan := do
  let s ← (s.dedentTo (-1)).dropKey?
  let (token, c) ← readDirective? (s.cursor.skip 1)
  return { s.push token with cursor := c, keyAllowed := false }

def openFlow? (s : Scan) (token : Token) : Option Scan := do
  let s ← s.saveKey?
  return { s with keys := none :: s.keys }.mark token 1 true

def closeFlow? (s : Scan) (token : Token) : Option Scan := do
  let s ← s.dropKey?
  return { s with keys := if s.isFlow then s.keys.drop 1 else s.keys }.mark token 1 false

def flowEntry? (s : Scan) : Option Scan := do return (← s.dropKey?).mark .flowEntry 1 true

def blockEntry? (s : Scan) : Option Scan :=
  if !s.isFlow && !s.keyAllowed then none
  else do
    let s := s.indentTo s.cursor.column s.tokens.size .blockSequenceStart
    return (← s.dropKey?).mark .blockEntry 1 true

def explicitKey? (s : Scan) : Option Scan :=
  if !s.isFlow && !s.keyAllowed then none
  else do
    let s := s.indentTo s.cursor.column s.tokens.size .blockMappingStart
    return (← s.dropKey?).mark .key 1 (!s.isFlow)

def value? (s : Scan) : Option Scan :=
  match s.key? with
  | some key =>
    let s := s.insertAt key.token .key
    let s := s.indentTo key.cursor.column key.token .blockMappingStart
    some ((s.setKey none).mark .value 1 false)
  | none =>
    if !s.isFlow && !s.keyAllowed then none
    else
      let s := s.indentTo s.cursor.column s.tokens.size .blockMappingStart
      some (s.mark .value 1 (!s.isFlow))

/-- A token that may be or start a key. -/
def keyToken? (s : Scan) (read : Cursor → Option (Token × Cursor)) : Option Scan := do
  let s ← s.saveKey?
  let (token, c) ← read s.cursor
  return { s.push token with cursor := c, keyAllowed := false }

def readName? (token : String → Token) (c : Cursor) : Option (Token × Cursor) :=
  (readAnchorName? (c.skip 1)).map fun (name, c) ↦ (token name, c)

def readQuotedToken? (isDouble : Bool) (c : Cursor) : Option (Token × Cursor) :=
  (readQuoted? isDouble (c.skip 1)).map fun (text, c) ↦
    (.scalar (if isDouble then .doubleQuoted else .singleQuoted) (String.ofList text), c)

def block? (s : Scan) (isLiteral : Bool) : Option Scan := do
  let s ← s.dropKey?
  let (text, c) ← readBlock? isLiteral s.indent (s.cursor.skip 1)
  let token := .scalar (if isLiteral then .literal else .folded) (String.ofList text)
  return { s.push token with cursor := c, keyAllowed := true }

/-- A plain scalar. After one that ends with a line break a key may start. -/
def plain? (s : Scan) : Option Scan := do
  let s ← s.saveKey?
  let (text, isBroken, c) ← readPlain? s.isFlow (s.indent + 1).toNat s.cursor
  return { s.push (.scalar .plain (String.ofList text)) with
    cursor := c
    keyAllowed := isBroken }

def startsPlain (s : Scan) (ch : Char) : Bool :=
  if ch = '-' then !s.cursor.rest[1]?.any isBlank
  else if ch = '?' || ch = ':' then !s.isFlow && !s.cursor.endsAt 1
  else !("-?:,[]\x7b\x7d#&*!|>\x27\"%@\x60".toList.contains ch || isBlank ch || isBreak ch)

def take? (s : Scan) (ch : Char) : Option Scan :=
  let c := s.cursor
  if c.column = 0 && ch = '%' then s.directive?
  else if c.atMarker '-' then s.documentMark? .documentStart
  else if c.atMarker '.' then s.documentMark? .documentEnd
  else if ch = '[' then s.openFlow? .flowSequenceStart
  else if ch = '\x7b' then s.openFlow? .flowMappingStart
  else if ch = ']' then s.closeFlow? .flowSequenceEnd
  else if ch = '\x7d' then s.closeFlow? .flowMappingEnd
  else if ch = ',' then s.flowEntry?
  else if ch = '-' && c.endsAt 1 then s.blockEntry?
  else if ch = '?' && (s.isFlow || c.endsAt 1) then s.explicitKey?
  else if ch = ':' && (s.isFlow || c.endsAt 1) then s.value?
  else if ch = '*' then s.keyToken? (readName? .alias)
  else if ch = '&' then s.keyToken? (readName? .anchor)
  else if ch = '!' then s.keyToken? (readTag? s.isFlow)
  else if ch = '|' && !s.isFlow then s.block? true
  else if ch = '>' && !s.isFlow then s.block? false
  else if ch = '\x27' then s.keyToken? (readQuotedToken? false)
  else if ch = '"' then s.keyToken? (readQuotedToken? true)
  else if s.startsPlain ch then s.plain?
  else none

def finish? (s : Scan) : Option (List Token) := do
  return (← (s.dedentTo (-1)).dropKey?).tokens.toList

/-- Takes all tokens. Every token takes at least one character, so the length of the text is fuel
enough. -/
def run? : Nat → Scan → Option (List Token)
  | 0, _ => none
  | fuel + 1, s => do
    let s ← s.toNextToken.dropStaleKeys?
    let s := s.dedentTo s.cursor.column
    match s.cursor.rest with
    | [] => s.finish?
    | ch :: _ => run? fuel (← s.take? ch)

end Scan

def tokens? (text : List Char) : Option (List Token) :=
  if text.all isAllowed then Scan.run? (text.length + 1) (.start text) else none

end MiningGame.Yaml
