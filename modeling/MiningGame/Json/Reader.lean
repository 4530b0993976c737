import MiningGame.Json.Number

/-!
# Reading JSON

A text is cut into tokens, and every token is fed to a stack of containers that are not closed yet,
so texts may be nested to any depth. Half a surrogate pair and a number beyond the doubles make a
value flawed but do not end the reading, because fields that nobody reads may contain them.
-/

namespace MiningGame.Json

inductive Token where
  | openArray
  | closeArray
  | openObject
  | closeObject
  | comma
  | colon
  /-- A text; none if it holds half a surrogate pair. -/
  | text (text? : Option String)
  | atom (value : Json)

def isBlank (c : Char) : Bool := c = ' ' || c = '\t' || c = '\n' || c = '\r'

def escaped? (c : Char) : Option Char :=
  if c = '"' || c = '\\' || c = '/' then some c
  else if c = 'b' then some '\x08'
  else if c = 'f' then some '\x0c'
  else if c = 'n' then some '\n'
  else if c = 'r' then some '\r'
  else if c = 't' then some '\t'
  else none

/-- Reads a text behind its opening quote as code points, in which surrogates stand for
themselves. The code points read so far come first, the latest at the head. -/
def readUnits (units : List Nat) : List Char → Option (List Nat × List Char)
  | [] => none
  | '"' :: rest => some (units.reverse, rest)
  | '\\' :: 'u' :: a :: b :: c :: d :: rest =>
    match Text.hexValue? [a, b, c, d] with
    | none => none
    | some unit => readUnits (unit :: units) rest
  | '\\' :: c :: rest =>
    match escaped? c with
    | none => none
    | some c' => readUnits (c'.toNat :: units) rest
  | c :: rest => if c.toNat < 0x20 then none else readUnits (c.toNat :: units) rest

def isHighSurrogate (unit : Nat) : Bool := 0xd800 ≤ unit && unit < 0xdc00

def isLowSurrogate (unit : Nat) : Bool := 0xdc00 ≤ unit && unit < 0xe000

def joinPair (high low : Nat) : Char :=
  Char.ofNat ((high - 0xd800) * 0x400 + (low - 0xdc00) + 0x10000)

/-- The characters that code points stand for, with surrogate pairs joined; none if half a pair is
among them. A first half that waits for its second is carried along, and so are the characters
joined so far, the latest at the head. -/
def joinUnits (waiting : Option Nat) (chars : List Char) : List Nat → Option (List Char)
  | [] => if waiting.isSome then none else some chars.reverse
  | unit :: rest =>
    match waiting with
    | some high =>
      if isLowSurrogate unit then joinUnits none (joinPair high unit :: chars) rest else none
    | none =>
      if isHighSurrogate unit then joinUnits (some unit) chars rest
      else if isLowSurrogate unit then none
      else joinUnits none (Char.ofNat unit :: chars) rest

def readText (cs : List Char) : Option (Option String × List Char) := do
  let (units, rest) ← readUnits [] cs
  return ((joinUnits none [] units).map String.ofList, rest)

def Token.read : List Char → Option (Token × List Char)
  | [] => none
  | '[' :: rest => some (openArray, rest)
  | ']' :: rest => some (closeArray, rest)
  | '\x7b' :: rest => some (openObject, rest)
  | '\x7d' :: rest => some (closeObject, rest)
  | ',' :: rest => some (comma, rest)
  | ':' :: rest => some (colon, rest)
  | '"' :: rest => (readText rest).map fun (text?, rest') ↦ (text text?, rest')
  | 'n' :: 'u' :: 'l' :: 'l' :: rest => some (atom null, rest)
  | 't' :: 'r' :: 'u' :: 'e' :: rest => some (atom (bool true), rest)
  | 'f' :: 'a' :: 'l' :: 's' :: 'e' :: rest => some (atom (bool false), rest)
  | '-' :: rest => (readNumber true rest).map fun (value, rest') ↦ (atom value, rest')
  | cs => (readNumber false cs).map fun (value, rest') ↦ (atom value, rest')

/-- A container that is not closed yet, its latest part at the head. -/
inductive Frame where
  | array (items : List Json)
  /-- An object with the name of the field that comes next. The object is flawed if one of its
  names is. -/
  | object (fields : List (String × Json)) (isFlawed : Bool) (name : String)

inductive Expectation where
  | value
  | valueOrEnd
  | name
  | nameOrEnd
  | colon
  | separator
  | nothing (result : Json)

structure Progress where
  expected : Expectation
  frames : List Frame

namespace Progress

def start : Progress := ⟨.value, []⟩

/-- A value is complete and goes into the innermost container. -/
def complete (j : Json) : List Frame → Progress
  | [] => ⟨.nothing j, []⟩
  | .array items :: frames => ⟨.separator, .array (j :: items) :: frames⟩
  | .object fields isFlawed name :: frames =>
    ⟨.separator, .object ((name, j) :: fields) isFlawed name :: frames⟩

/-- Takes the token at the start of a value. -/
def feedValue (frames : List Frame) : Token → Option Progress
  | .atom j => some (complete j frames)
  | .text none => some (complete flawed frames)
  | .text (some text) => some (complete (str text) frames)
  | .openArray => some ⟨.valueOrEnd, .array [] :: frames⟩
  | .openObject => some ⟨.nameOrEnd, .object [] false "" :: frames⟩
  | _ => none

def feedName : List Frame → Token → Option Progress
  | .object fields isFlawed _ :: frames, .text (some name) =>
    some ⟨.colon, .object fields isFlawed name :: frames⟩
  | .object fields _ _ :: frames, .text none => some ⟨.colon, .object fields true "" :: frames⟩
  | _, _ => none

def close : List Frame → Token → Option Progress
  | .array items :: frames, .closeArray => some (complete (arr items.reverse) frames)
  | .object fields false _ :: frames, .closeObject =>
    some (complete (obj fields.reverse) frames)
  | .object _ true _ :: frames, .closeObject => some (complete flawed frames)
  | _, _ => none

def feedSeparator : List Frame → Token → Option Progress
  | .array items :: frames, .comma => some ⟨.value, .array items :: frames⟩
  | .object fields isFlawed name :: frames, .comma =>
    some ⟨.name, .object fields isFlawed name :: frames⟩
  | frames, token => close frames token

def feed (p : Progress) (token : Token) : Option Progress :=
  match p.expected with
  | .value => feedValue p.frames token
  | .valueOrEnd =>
    match token with
    | .closeArray => close p.frames .closeArray
    | token => feedValue p.frames token
  | .name => feedName p.frames token
  | .nameOrEnd =>
    match token with
    | .closeObject => close p.frames .closeObject
    | token => feedName p.frames token
  | .colon =>
    match token with
    | .colon => some ⟨.value, p.frames⟩
    | _ => none
  | .separator => feedSeparator p.frames token
  | .nothing _ => none

def result? (p : Progress) : Option Json :=
  match p.expected with
  | .nothing j => some j
  | _ => none

/-- Reads tokens to the end of a text. Every token takes at least one character, so the length of
the text is fuel enough. -/
def run : Nat → Progress → List Char → Option Json
  | 0, p, _ => p.result?
  | fuel + 1, p, cs =>
    match cs.dropWhile isBlank with
    | [] => p.result?
    | c :: rest =>
      match Token.read (c :: rest) with
      | none => none
      | some (token, rest') =>
        match p.feed token with
        | none => none
        | some p' => run fuel p' rest'

end Progress

def parse? (text : String) : Option Json :=
  Progress.run (text.length + 1) .start text.toList

def parseDocument? (text : String) : Option Json := do
  (← parse? text).document? documentDepth

end MiningGame.Json
