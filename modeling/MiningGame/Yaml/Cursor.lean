/-!
# A place in a YAML text

A cursor is what is left of a text, with the place reached in it. Lines end at a line feed, a
carriage return, both, or one of three further line breaks.
-/

namespace MiningGame.Yaml

def isBreak (c : Char) : Bool :=
  c = '\n' || c = '\r' || c = '\u0085' || c = '\u2028' || c = '\u2029'

def isBlank (c : Char) : Bool := c = ' ' || c = '\t'

/-- Whether a character may stand in names of anchors, handles and directives. -/
def isNameChar (c : Char) : Bool := c.isAlphanum || c = '_' || c = '-'

/-- Whether a text may contain a character: tabs, line breaks and what can be printed. -/
def isAllowed (c : Char) : Bool :=
  let n := c.toNat
  n = 0x9 || n = 0xa || n = 0xd || (0x20 ≤ n && n ≤ 0x7e) || n = 0x85 ||
    (0xa0 ≤ n && n ≤ 0xd7ff) || (0xe000 ≤ n && n ≤ 0xfffd) || 0x10000 ≤ n

structure Cursor where
  rest : List Char
  index : Nat
  line : Nat
  column : Nat

namespace Cursor

def start (text : List Char) : Cursor := ⟨text, 0, 0, 0⟩

/-- How many bytes the next characters take. -/
def byteCount (c : Cursor) (count : Nat) : Nat := (String.ofList (c.rest.take count)).utf8ByteSize

/-- The place after some characters of the line. -/
def skip (c : Cursor) (count : Nat) : Cursor :=
  ⟨c.rest.drop count, c.index + c.byteCount count, c.line, c.column + count⟩

def hasAt (c : Cursor) (ahead : Nat) (expected : Char) : Bool := c.rest[ahead]? = some expected

def has (c : Cursor) (expected : Char) : Bool := c.hasAt 0 expected

def endsAt (c : Cursor) (ahead : Nat) : Bool :=
  match c.rest[ahead]? with
  | none => true
  | some ch => isBlank ch || isBreak ch

def atLineEnd (c : Cursor) : Bool :=
  match c.rest with
  | [] => true
  | ch :: _ => isBreak ch

def nextLine (c : Cursor) (count : Nat) : Cursor :=
  ⟨c.rest.drop count, c.index + c.byteCount count, c.line + 1, 0⟩

/-- The line break here, as it reads in a scalar, with the place after it. -/
def lineBreak? (c : Cursor) : Option (List Char × Cursor) :=
  match c.rest with
  | [] => none
  | '\r' :: '\n' :: _ => some (['\n'], c.nextLine 2)
  | ch :: _ =>
    if ch = '\u2028' || ch = '\u2029' then some ([ch], c.nextLine 1)
    else if isBreak ch then some (['\n'], c.nextLine 1)
    else none

def skipBreak (c : Cursor) : Cursor :=
  match c.lineBreak? with
  | none => c
  | some (_, c') => c'

/-- The characters of the line that pass a test, with the place after them. The test must not pass
line breaks. -/
def takeWhile (c : Cursor) (p : Char → Bool) : List Char × Cursor :=
  let taken := c.rest.takeWhile p
  (taken, c.skip taken.length)

def skipWhile (c : Cursor) (p : Char → Bool) : Cursor := (c.takeWhile p).2

def skipComment (c : Cursor) : Cursor := if c.has '#' then c.skipWhile (!isBreak ·) else c

/-- The start of the next line, if only blanks and a comment are left of this one. -/
def finishLine? (c : Cursor) : Option Cursor :=
  let c := (c.skipWhile isBlank).skipComment
  if c.atLineEnd then some c.skipBreak else none

/-- The place after the byte order mark at the start of the line, if there is one. -/
def skipByteOrderMark (c : Cursor) : Cursor :=
  if c.column = 0 && c.has '\ufeff' then c.skip 1 else c

/-- Whether three marks that separate documents stand here at the start of a line. -/
def atMarker (c : Cursor) (mark : Char) : Bool :=
  c.column = 0 && c.has mark && c.hasAt 1 mark && c.hasAt 2 mark && c.endsAt 3

def atDocumentMarker (c : Cursor) : Bool := c.atMarker '-' || c.atMarker '.'

end Cursor

end MiningGame.Yaml
