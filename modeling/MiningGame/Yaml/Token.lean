import MiningGame.Yaml.Scalar

/-!
# Tokens of YAML texts

Tokens are the indicators, names and scalars of a text, with the start and the end of every block
collection made explicit.
-/

namespace MiningGame.Yaml

/-- The text of a tag or of a part of it; none if its bytes are no text. -/
abbrev TagText := Option String

inductive Token where
  | version (major minor : Nat)
  | tagHandle (handle : String) (start : TagText)
  | documentStart
  | documentEnd
  | blockSequenceStart
  | blockMappingStart
  | blockEnd
  | flowSequenceStart
  | flowSequenceEnd
  | flowMappingStart
  | flowMappingEnd
  | blockEntry
  | flowEntry
  | key
  | value
  | alias (name : String)
  | anchor (name : String)
  | tag (handle : String) (suffix : TagText)
  | scalar (style : ScalarStyle) (text : String)
  deriving DecidableEq

def readVersionNumber? (c : Cursor) : Option (Nat × Cursor) :=
  let (digits, c) := c.takeWhile Text.isDigit
  if digits.isEmpty || 9 < digits.length then none
  else some (Nat.ofDigitChars 10 digits 0, c)

def readVersion? (c : Cursor) : Option (Token × Cursor) := do
  let (major, c) ← readVersionNumber? (c.skipWhile isBlank)
  if !c.has '.' then none
  let (minor, c) ← readVersionNumber? (c.skip 1)
  return (.version major minor, c)

/-- Reads a tag handle: a mark, and a name with another mark behind it. A declaration needs the
second mark unless there is no name. -/
def readTagHandle? (isDeclared : Bool) (c : Cursor) : Option (List Char × Cursor) :=
  if !c.has '!' then none
  else
    let (name, c) := (c.skip 1).takeWhile isNameChar
    if c.has '!' then some ('!' :: name ++ ['!'], c.skip 1)
    else if isDeclared && !name.isEmpty then none
    else some ('!' :: name, c)

/-- Whether a character may stand in a tag; some may only where the tag is marked off. -/
def isTagChar (isMarkedOff : Bool) (c : Char) : Bool :=
  isNameChar c || ";/?:@&=+$.%!~*\x27()".toList.contains c ||
    (isMarkedOff && ",[]".toList.contains c)

/-- The number of bytes of a character that starts with a byte. -/
def byteWidth? (byte : UInt8) : Option Nat :=
  if byte < 0x80 then some 1
  else if byte / 0x20 = 0x6 then some 2
  else if byte / 0x10 = 0xe then some 3
  else if byte / 0x8 = 0x1e then some 4
  else none

def readEscapedByte? : List Char → Option (UInt8 × List Char)
  | '%' :: a :: b :: rest => (Text.hexValue? [a, b]).map fun n ↦ (UInt8.ofNat n, rest)
  | _ => none

def readTrailingBytes? : Nat → List Char → Option (List UInt8 × List Char)
  | 0, cs => some ([], cs)
  | count + 1, cs => do
    let (byte, rest) ← readEscapedByte? cs
    if byte / 0x40 ≠ 2 then none
    let (bytes, rest) ← readTrailingBytes? count rest
    return (byte :: bytes, rest)

/-- The bytes that the characters of a tag stand for. Escaped bytes must come as many at a time as
the first of them announces; whether they are a character then does not matter here. -/
def tagBytes? : Nat → List Char → Option (List UInt8)
  | _, [] => some []
  | 0, _ => none
  | fuel + 1, '%' :: cs => do
    let (byte, rest) ← readEscapedByte? ('%' :: cs)
    let (trailing, rest) ← readTrailingBytes? ((← byteWidth? byte) - 1) rest
    return byte :: trailing ++ (← tagBytes? fuel rest)
  | fuel + 1, c :: cs => do return UInt8.ofNat c.toNat :: (← tagBytes? fuel cs)

/-- The text of bytes, which end before the first zero byte. -/
def tagText (bytes : List UInt8) : TagText :=
  String.fromUTF8? (bytes.takeWhile (· ≠ 0)).toByteArray

def readTagBytes? (isMarkedOff : Bool) (c : Cursor) : Option (List UInt8 × Cursor) := do
  let (written, c) := c.takeWhile (isTagChar isMarkedOff)
  return (← tagBytes? written.length written, c)

def readTagDeclaration? (c : Cursor) : Option (Token × Cursor) := do
  let (handle, c) ← readTagHandle? true (c.skipWhile isBlank)
  if !c.rest.head?.any isBlank then none
  let (start, c) ← readTagBytes? true (c.skipWhile isBlank)
  if start.isEmpty || !c.endsAt 0 then none
  return (.tagHandle (String.ofList handle) (tagText start), c)

def readDirective? (c : Cursor) : Option (Token × Cursor) := do
  let (name, c) := c.takeWhile isNameChar
  if !c.endsAt 0 then none
  let (token, c) ←
    if name = "YAML".toList then readVersion? c
    else if name = "TAG".toList then readTagDeclaration? c
    else none
  return (token, ← c.finishLine?)

def readAnchorName? (c : Cursor) : Option (String × Cursor) :=
  let (name, c) := c.takeWhile isNameChar
  let isFollowed := c.endsAt 0 || c.rest.head?.any fun ch ↦ "?:,]\x7d%@\x60".toList.contains ch
  if name.isEmpty || !isFollowed then none else some (String.ofList name, c)

/-- Reads a tag that is marked off by angle brackets, from the opening one. -/
def readVerbatimTag? (c : Cursor) : Option (Token × Cursor) := do
  let (bytes, c) ← readTagBytes? true (c.skip 1)
  if bytes.isEmpty || !c.has '>' then none
  return (.tag "" (tagText bytes), c.skip 1)

/-- Reads a tag that starts with a handle. A lone mark is a tag of its own. -/
def readShortTag? (c : Cursor) : Option (Token × Cursor) := do
  let (handle, c) ← readTagHandle? false c
  let (bytes, c) ← readTagBytes? false c
  if 1 < handle.length && handle.getLast? = some '!' then
    if bytes.isEmpty then none
    return (.tag (String.ofList handle) (tagText bytes), c)
  else
    let text := tagText (handle.tail.map (UInt8.ofNat ·.toNat) ++ bytes)
    return (if text = some "" then .tag "" (some "!") else .tag "!" text, c)

def readTag? (isFlow : Bool) (c : Cursor) : Option (Token × Cursor) := do
  let (token, c) ← if c.hasAt 1 '<' then readVerbatimTag? (c.skip 1) else readShortTag? c
  if c.endsAt 0 || (isFlow && c.has ',') then return (token, c) else none

end MiningGame.Yaml
