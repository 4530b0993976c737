import MiningGame.Json.Basic
import MiningGame.Text.Digit

/-!
# JSON numbers

A number without fraction and exponent that fits 64 bits is an integer. All other numbers are
doubles, and are flawed if they are too large for one. Only as many leading digits as fit a word
count for this, the others just scale.
-/

namespace MiningGame.Json

/-- The nearest number with at most 53 significant bits; of two the one with an even last bit. -/
def round53 (n : Nat) : Nat :=
  if n < 1 <<< 53 then n
  else
    let unit := 1 <<< (n.log2 - 52)
    let quotient := n / unit
    let twice := 2 * (n % unit)
    let up := unit < twice || (twice = unit && quotient % 2 = 1)
    (if up then quotient + 1 else quotient) * unit

/-- Whether a word times a power of ten, both rounded to doubles, is too large for a double. -/
def isTooLarge (significand : Nat) (exponent : Int) : Bool :=
  if significand = 0 || exponent < 0 then false
  else if 308 < exponent then true
  else 1 <<< 1024 - 1 <<< 970 ≤ round53 significand * round53 (Nat.pow 10 exponent.toNat)

def digitsValue (digits : List Char) : Nat := Nat.ofDigitChars 10 digits 0

/-- A word extended by further digits as long as it stays one, and the digits left over. -/
def extend (significand : Nat) : List Char → Nat × List Char
  | [] => (significand, [])
  | d :: rest =>
    let longer := significand * 10 + Text.digitValue d
    if longer < UInt64.size then extend longer rest else (significand, d :: rest)

structure Numeral where
  negative : Bool
  whole : List Char
  /-- The digits after the point; none if there is no point. -/
  fraction : List Char
  exponent : Option (Bool × List Char)
  spelling : List Char

namespace Numeral

def isTooLarge (n : Numeral) : Bool :=
  let (leading, dropped) := extend 0 n.whole
  let (significand, unused) := extend leading n.fraction
  let scale : Int := dropped.length - (n.fraction.length - unused.length)
  let exponent : Int := match n.exponent with
    | none => 0
    | some (true, digits) => -digitsValue digits
    | some (false, digits) => digitsValue digits
  Json.isTooLarge significand (scale + exponent)

def value (n : Numeral) : Json :=
  let whole := digitsValue n.whole
  if n.fraction.isEmpty && n.exponent.isNone && !n.negative && whole < UInt64.size then int whole
  else if n.fraction.isEmpty && n.exponent.isNone && n.negative && 0 < whole &&
    whole ≤ 0x8000000000000000
  then int (-whole)
  else if n.isTooLarge then flawed
  else decimal n.spelling

end Numeral

def takeDigits? (cs : List Char) : Option (List Char × List Char) :=
  let digits := cs.takeWhile Text.isDigit
  if digits.isEmpty then none else some (digits, cs.drop digits.length)

/-- Reads the digits before the point: a zero, or digits that start with none. -/
def readWhole (cs : List Char) : Option (List Char × List Char) := do
  let (digits, rest) ← takeDigits? cs
  if digits.head? = some '0' && 1 < digits.length then none else some (digits, rest)

def readFraction : List Char → Option (List Char × List Char)
  | '.' :: cs => takeDigits? cs
  | cs => some ([], cs)

def readSignedDigits : List Char → Option ((Bool × List Char) × List Char)
  | '+' :: cs => (takeDigits? cs).map fun (digits, rest) ↦ ((false, digits), rest)
  | '-' :: cs => (takeDigits? cs).map fun (digits, rest) ↦ ((true, digits), rest)
  | cs => (takeDigits? cs).map fun (digits, rest) ↦ ((false, digits), rest)

def readExponent : List Char → Option (Option (Bool × List Char) × List Char)
  | 'e' :: cs => (readSignedDigits cs).map fun (e, rest) ↦ (some e, rest)
  | 'E' :: cs => (readSignedDigits cs).map fun (e, rest) ↦ (some e, rest)
  | cs => some (none, cs)

def readNumber (negative : Bool) (cs : List Char) : Option (Json × List Char) := do
  let (whole, rest) ← readWhole cs
  let (fraction, rest) ← readFraction rest
  let (exponent, rest) ← readExponent rest
  let digits := cs.take (cs.length - rest.length)
  let spelling := if negative then '-' :: digits else digits
  return ((Numeral.mk negative whole fraction exponent spelling).value, rest)

end MiningGame.Json
