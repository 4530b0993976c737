import MiningGame.Text.Digit
import MiningGame.Yaml.Cursor

/-!
# Scalars of YAML texts

Scalars are plain, quoted or blocks of lines. Where a plain or quoted scalar goes over several
lines, a single line break reads as a space and further ones as themselves; a folded block keeps
its breaks where a line starts with a blank.
-/

namespace MiningGame.Yaml

inductive ScalarStyle where
  | plain
  | singleQuoted
  | doubleQuoted
  | literal
  | folded
  deriving DecidableEq

/-- What stands between two words of a scalar. -/
structure Gap where
  blanks : List Char
  first : List Char
  further : List Char
  isBroken : Bool

namespace Gap

/-- Nothing between two words; after an escaped line break they are on different lines. -/
def none (isBroken : Bool) : Gap := ⟨[], [], [], isBroken⟩

def text (g : Gap) : List Char :=
  if !g.isBroken then g.blanks
  else match g.first with
    | '\n' :: _ => if g.further.isEmpty then [' '] else g.further
    | first => first ++ g.further

/-- Reads a gap. Tabs must not stand where a line is indented less than a limit. -/
def read? (tabLimit : Nat) : Nat → Gap → Cursor → Option (Gap × Cursor)
  | 0, g, c => some (g, c)
  | fuel + 1, g, c =>
    match c.rest with
    | [] => some (g, c)
    | ch :: _ =>
      if isBlank ch then
        if !g.isBroken then read? tabLimit fuel { g with blanks := g.blanks ++ [ch] } (c.skip 1)
        else if ch = '\t' && c.column < tabLimit then Option.none
        else read? tabLimit fuel g (c.skip 1)
      else match c.lineBreak? with
        | Option.none => some (g, c)
        | some (text, c') =>
          if g.isBroken then read? tabLimit fuel { g with further := g.further ++ text } c'
          else read? tabLimit fuel ⟨[], text, [], true⟩ c'

end Gap

def escaped? (c : Char) : Option Char :=
  match c with
  | '0' => some '\x00'
  | 'a' => some '\x07'
  | 'b' => some '\x08'
  | 't' => some '\t'
  | '\t' => some '\t'
  | 'n' => some '\n'
  | 'v' => some '\x0b'
  | 'f' => some '\x0c'
  | 'r' => some '\r'
  | 'e' => some '\x1b'
  | ' ' => some ' '
  | '"' => some '"'
  | '/' => some '/'
  | '\\' => some '\\'
  | 'N' => some '\u0085'
  | '_' => some '\u00a0'
  | 'L' => some '\u2028'
  | 'P' => some '\u2029'
  | _ => none

def escapeLength? (c : Char) : Option Nat :=
  match c with
  | 'x' => some 2
  | 'u' => some 4
  | 'U' => some 8
  | _ => none

def readEscape? (c : Cursor) : Option (Char × Cursor) := do
  let letter ← c.rest.head?
  match escapeLength? letter with
  | none => return (← escaped? letter, c.skip 1)
  | some count =>
    let digits := (c.rest.drop 1).take count
    if digits.length < count then none
    let value ← Text.hexValue? digits
    if h : value.isValidChar then
      return (Char.ofNatAux value h, c.skip (count + 1))
    else none

/-- Reads a word between quotes. The characters before it come first, the latest at the head. The
answer says whether the word ends with an escaped line break. -/
def readQuotedWord? (isDouble : Bool) :
    Nat → List Char → Cursor → Option (List Char × Bool × Cursor)
  | 0, acc, c => some (acc, false, c)
  | fuel + 1, acc, c =>
    match c.rest with
    | [] => some (acc, false, c)
    | ch :: _ =>
      if isBlank ch || isBreak ch then some (acc, false, c)
      else if isDouble then
        if ch = '"' then some (acc, false, c)
        else if ch = '\\' then
          match (c.skip 1).lineBreak? with
          | some (_, c') => some (acc, true, c')
          | none =>
            match readEscape? (c.skip 1) with
            | none => none
            | some (ch', c') => readQuotedWord? isDouble fuel (ch' :: acc) c'
        else readQuotedWord? isDouble fuel (ch :: acc) (c.skip 1)
      else if ch = '\x27' then
        if c.hasAt 1 '\x27' then readQuotedWord? isDouble fuel (ch :: acc) (c.skip 2)
        else some (acc, false, c)
      else readQuotedWord? isDouble fuel (ch :: acc) (c.skip 1)

def readQuotedWords? (isDouble : Bool) : Nat → List Char → Cursor → Option (List Char × Cursor)
  | 0, _, _ => none
  | fuel + 1, acc, c =>
    if c.atDocumentMarker || c.rest.isEmpty then none
    else match readQuotedWord? isDouble c.rest.length acc c with
      | none => none
      | some (acc, isBroken, c) =>
        if c.has (if isDouble then '"' else '\x27') then some (acc.reverse, c.skip 1)
        else match Gap.read? 0 c.rest.length (.none isBroken) c with
          | none => none
          | some (gap, c) => readQuotedWords? isDouble fuel (gap.text.reverse ++ acc) c

def readQuoted? (isDouble : Bool) (c : Cursor) : Option (List Char × Cursor) :=
  readQuotedWords? isDouble (c.rest.length + 1) [] c

def isFlowIndicator (c : Char) : Bool :=
  c = ',' || c = '[' || c = ']' || c = '\x7b' || c = '\x7d'

/-- Reads a word of a plain scalar. The characters before it come first, the latest at the head.
Between brackets a colon must not stand right before a character with a meaning of its own. -/
def readPlainWord? (isFlow : Bool) : Nat → List Char → Cursor → Option (List Char × Cursor)
  | 0, acc, c => some (acc, c)
  | fuel + 1, acc, c =>
    match c.rest with
    | [] => some (acc, c)
    | ch :: next =>
      if isBlank ch || isBreak ch then some (acc, c)
      else if isFlow && ch = ':' && next.head?.any fun n ↦ isFlowIndicator n || n = '?' then none
      else if (ch = ':' && c.endsAt 1) || (isFlow && isFlowIndicator ch) then some (acc, c)
      else readPlainWord? isFlow fuel (ch :: acc) (c.skip 1)

/-- Reads the words of a plain scalar. A word that starts with a comment or a document marker, and
outside of brackets a line that is not indented enough, ends it. The answer says whether line
breaks were skipped after the last word. -/
def readPlainWords? (isFlow : Bool) (indent : Nat) :
    Nat → Gap → List Char → Cursor → Option (List Char × Bool × Cursor)
  | 0, gap, acc, c => some (acc.reverse, gap.isBroken, c)
  | fuel + 1, gap, acc, c =>
    if c.atDocumentMarker || c.has '#' then some (acc.reverse, gap.isBroken, c)
    else match readPlainWord? isFlow c.rest.length [] c with
      | none => none
      | some ([], c) => some (acc.reverse, gap.isBroken, c)
      | some (word, c) =>
        let acc := word ++ gap.text.reverse ++ acc
        match Gap.read? indent c.rest.length (.none false) c with
        | none => none
        | some (gap, c') =>
          if c'.index = c.index || (!isFlow && c'.column < indent) then
            some (acc.reverse, gap.isBroken, c')
          else readPlainWords? isFlow indent fuel gap acc c'

def readPlain? (isFlow : Bool) (indent : Nat) (c : Cursor) : Option (List Char × Bool × Cursor) :=
  readPlainWords? isFlow indent (c.rest.length + 1) (.none false) [] c

/-- What happens to the line breaks at the end of a block. -/
inductive Chomping where
  | strip
  | clip
  | keep
  deriving DecidableEq

def readChomping? (c : Cursor) : Option (Chomping × Cursor) :=
  if c.has '+' then some (.keep, c.skip 1)
  else if c.has '-' then some (.strip, c.skip 1)
  else none

/-- Reads an indentation indicator; it must not be zero. -/
def readIncrement? (c : Cursor) : Option (Option Nat × Cursor) :=
  match c.rest with
  | [] => some (none, c)
  | ch :: _ =>
    if ch = '0' then none
    else if Text.isDigit ch then some (some (Text.digitValue ch), c.skip 1)
    else some (none, c)

def readBlockHeader? (c : Cursor) : Option (Chomping × Option Nat × Cursor) :=
  match readChomping? c with
  | some (chomping, c) => do
    let (increment, c) ← readIncrement? c
    return (chomping, increment, c)
  | none => do
    let (increment, c) ← readIncrement? c
    match increment, readChomping? c with
    | some _, some (chomping, c) => return (chomping, increment, c)
    | _, _ => return (.clip, increment, c)

/-- Reads empty lines and the indentation of the line behind them. Without a known indentation all
spaces count; the greatest column reached is part of the answer. -/
def readBlockBreaks? (indent : Option Nat) :
    Nat → Nat → List Char → Cursor → Option (Nat × List Char × Cursor)
  | 0, widest, breaks, c => some (widest, breaks, c)
  | fuel + 1, widest, breaks, c =>
    let isInside (column : Nat) : Bool := indent.all fun i ↦ column < i
    let spaces := c.rest.takeWhile (· = ' ')
    let count := match indent with
      | none => spaces.length
      | some i => min spaces.length (i - c.column)
    let c := c.skip count
    let widest := max widest c.column
    if isInside c.column && c.has '\t' then none
    else match c.lineBreak? with
      | none => some (widest, breaks, c)
      | some (text, c') => readBlockBreaks? indent fuel widest (breaks ++ text) c'

/-- The state between two lines of a block: the text so far with its latest character at the head,
the break behind the last line, the empty lines after it, and whether that line started with a
blank. -/
structure BlockLines where
  acc : List Char
  last : List Char
  empty : List Char
  wasBlank : Bool

/-- The text before the next line, which may start with a blank. -/
def BlockLines.joined (b : BlockLines) (isLiteral isBlank : Bool) : List Char :=
  if !isLiteral && b.last.head? = some '\n' && !b.wasBlank && !isBlank then
    b.empty.reverse ++ (if b.empty.isEmpty then ' ' :: b.acc else b.acc)
  else b.empty.reverse ++ b.last.reverse ++ b.acc

def readBlockLines? (isLiteral : Bool) (indent : Nat) :
    Nat → BlockLines → Cursor → Option (BlockLines × Cursor)
  | 0, b, c => some (b, c)
  | fuel + 1, b, c =>
    if c.column ≠ indent || c.rest.isEmpty then some (b, c)
    else
      let isBlankLine := c.rest.head?.any isBlank
      let acc := b.joined isLiteral isBlankLine
      let (line, c) := c.takeWhile (!isBreak ·)
      let (last, c) := c.lineBreak?.getD ([], c)
      match readBlockBreaks? (some indent) (c.rest.length + 1) 0 [] c with
      | none => none
      | some (_, empty, c) =>
        readBlockLines? isLiteral indent fuel ⟨line.reverse ++ acc, last, empty, isBlankLine⟩ c

/-- Reads a block behind its first indicator, inside a collection of some indentation. -/
def readBlock? (isLiteral : Bool) (outer : Int) (c : Cursor) : Option (List Char × Cursor) := do
  let (chomping, increment, c) ← readBlockHeader? c
  let c ← c.finishLine?
  let known := increment.map fun n ↦ (if 0 ≤ outer then outer.toNat + n else n)
  let (widest, empty, c) ← readBlockBreaks? known (c.rest.length + 1) 0 [] c
  let indent := known.getD (max (max widest (outer + 1).toNat) 1)
  let (b, c) ← readBlockLines? isLiteral indent (c.rest.length + 1) ⟨[], [], empty, false⟩ c
  let kept := match chomping with
    | .strip => []
    | .clip => b.last
    | .keep => b.last ++ b.empty
  return (b.acc.reverse ++ kept, c)

end MiningGame.Yaml
