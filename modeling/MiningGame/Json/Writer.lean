import MiningGame.Json.Basic

/-!
# Writing JSON

The compact form has no blanks. The pretty form has one item or field per line, two spaces of
indentation per level and nothing between the brackets of an empty container.
-/

namespace MiningGame.Json

/-- A character between quotes: only quote, backslash and control characters are escaped. -/
def writtenChar (c : Char) : List Char :=
  if c = '"' then ['\\', '"']
  else if c = '\\' then ['\\', '\\']
  else if c = '\x08' then ['\\', 'b']
  else if c = '\x0c' then ['\\', 'f']
  else if c = '\n' then ['\\', 'n']
  else if c = '\r' then ['\\', 'r']
  else if c = '\t' then ['\\', 't']
  else if c.toNat < 0x20 then
    ['\\', 'u', '0', '0', Nat.digitChar (c.toNat / 16), Nat.digitChar (c.toNat % 16)]
  else [c]

def writtenText (text : String) : List Char :=
  '"' :: text.toList.flatMap writtenChar ++ ['"']

def writtenInt (n : Int) : List Char :=
  if n < 0 then '-' :: Nat.toDigits 10 n.natAbs else Nat.toDigits 10 n.natAbs

mutual

def compact : Json → List Char
  | null => ['n', 'u', 'l', 'l']
  | bool true => ['t', 'r', 'u', 'e']
  | bool false => ['f', 'a', 'l', 's', 'e']
  | int n => writtenInt n
  | decimal spelling => spelling
  | str text => writtenText text
  | arr items => '[' :: compactItems items
  | obj fields => '\x7b' :: compactFields fields
  | flawed => ['n', 'u', 'l', 'l']

def compactItems : List Json → List Char
  | [] => [']']
  | [j] => compact j ++ [']']
  | j :: rest => compact j ++ ',' :: compactItems rest

def compactFields : List (String × Json) → List Char
  | [] => ['\x7d']
  | [(name, j)] => writtenText name ++ ':' :: compact j ++ ['\x7d']
  | (name, j) :: rest => writtenText name ++ ':' :: compact j ++ ',' :: compactFields rest

end

def newLine (level : Nat) : List Char := '\n' :: List.replicate (2 * level) ' '

mutual

def pretty (level : Nat) : Json → List Char
  | null => ['n', 'u', 'l', 'l']
  | bool true => ['t', 'r', 'u', 'e']
  | bool false => ['f', 'a', 'l', 's', 'e']
  | int n => writtenInt n
  | decimal spelling => spelling
  | str text => writtenText text
  | arr items => '[' :: prettyItems level true items
  | obj fields => '\x7b' :: prettyFields level true fields
  | flawed => ['n', 'u', 'l', 'l']

/-- The pretty form of the items of an array, up to its closing bracket. The first item has no
comma before it; without items there is no line break. -/
def prettyItems (level : Nat) (isFirst : Bool) : List Json → List Char
  | [] => (if isFirst then [] else newLine level) ++ [']']
  | j :: rest =>
    (if isFirst then [] else [',']) ++ newLine (level + 1) ++ pretty (level + 1) j ++
      prettyItems level false rest

/-- The pretty form of the fields of an object, up to its closing brace. The first field has no
comma before it; without fields there is no line break. -/
def prettyFields (level : Nat) (isFirst : Bool) : List (String × Json) → List Char
  | [] => (if isFirst then [] else newLine level) ++ ['\x7d']
  | (name, j) :: rest =>
    (if isFirst then [] else [',']) ++ newLine (level + 1) ++ writtenText name ++
      ':' :: ' ' :: pretty (level + 1) j ++ prettyFields level false rest

end

def compactText (j : Json) : String := String.ofList j.compact

def prettyText (j : Json) : String := String.ofList (j.pretty 0)

end MiningGame.Json
