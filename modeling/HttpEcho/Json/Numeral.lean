import HttpEcho.Number.Binary64

/-! JSON numerals and the numbers they denote.

A numeral is the grammar's number: an optional minus, a whole part without needless zeros, and
optional fraction and exponent. An integer literal that fits 64 bits denotes itself. Every other
numeral denotes a binary64 number: its leading digits are gathered while they fit 64 bits
(`absorb`), further ones only count, and the gathered number, rounded once, is multiplied or
divided by a power of ten, rounded again (`scale?`). This is within a few units of the nearest
binary64 number and not always it. -/
namespace HttpEcho.Json

/-- A number of a JSON value. -/
inductive Number where
  | integer (i : Int)
  | real (x : Binary64)
  deriving DecidableEq, Repr

/-- The exponent part of a numeral. -/
structure Exponent where
  negative : Bool
  digits : List Char
  deriving DecidableEq, Repr

/-- A number as it is written. -/
structure Numeral where
  negative : Bool
  whole : List Char
  fraction : Option (List Char) := none
  exponent : Option Exponent := none
  deriving DecidableEq, Repr

/-! ### Reading -/

/-- Whether digits are a whole part: at least one, and no zero before others. -/
def isWholePart : List Char → Bool
  | [] => false
  | ['0'] => true
  | c :: _ => c != '0'

/-- The fraction that stands at the front, if one does, and what follows. `none` when a point has
no digit after it. -/
def splitFraction : List Char → Option (Option (List Char) × List Char)
  | '.' :: r =>
    let digits := r.takeWhile Char.isDigit
    if digits.isEmpty then none else some (some digits, r.dropWhile Char.isDigit)
  | s => some (none, s)

/-- A sign at the front: whether it is a minus, and what follows. -/
def splitSign : List Char → Bool × List Char
  | '-' :: r => (true, r)
  | '+' :: r => (false, r)
  | s => (false, s)

/-- The exponent that the rest is, if it is one. `none` when it is anything else. -/
def exponent? : List Char → Option (Option Exponent)
  | [] => some none
  | c :: r =>
    let (negative, digits) := splitSign r
    if (c = 'e' ∨ c = 'E') ∧ !digits.isEmpty ∧ digits.all Char.isDigit then
      some (some ⟨negative, digits⟩)
    else none

/-- The numeral that a text is. -/
def Numeral.ofChars? (s : List Char) : Option Numeral := do
  let (negative, s) := match s with
    | '-' :: r => (true, r)
    | s => (false, s)
  let whole := s.takeWhile Char.isDigit
  guard (isWholePart whole)
  let (fraction, s) ← splitFraction (s.dropWhile Char.isDigit)
  let exponent ← exponent? s
  some ⟨negative, whole, fraction, exponent⟩

/-! ### The number it denotes -/

/-- The value of a digit. -/
def digitValue (c : Char) : Nat :=
  c.toNat - '0'.toNat

/-- The value of digits. -/
def digitsValue (digits : List Char) : Nat :=
  digits.foldl (fun n c => 10 * n + digitValue c) 0

/-- The greatest integer that is kept exactly. -/
def maxNatural : Nat := 0xFFFFFFFFFFFFFFFF

/-- The least integer that is kept exactly, negated. -/
def maxNegated : Nat := 0x8000000000000000

/-- Appends digits to a number while it fits 64 bits. Gives the number and the digits left. -/
def absorb (n : Nat) : List Char → Nat × List Char
  | [] => (n, [])
  | c :: r =>
    let m := 10 * n + digitValue c
    if maxNatural < m then (n, c :: r) else absorb m r

/-- Divides by `10 ^ 308` while that can matter, then by what is left of the power. -/
def divideOut : (steps : Nat) → (units : Nat) → (e : Nat) → Option Nat
  | 0, units, e => do Binary64.divUnits units (← Binary64.powTen e)
  | n + 1, units, e =>
    if units = 0 then some 0
    else do divideOut n (← Binary64.divUnits units (← Binary64.powTen 308)) e

/-- A magnitude times a power of ten. `none` where no finite number is near. -/
def scale? (units : Nat) (e : Int) : Option Nat :=
  if 0 ≤ e then
    if e ≤ 308 then do Binary64.mulUnits units (← Binary64.powTen e.toNat)
    else if units = 0 then some 0
    else none
  else
    let down := (-e).toNat
    let steps := (down - 1) / 308
    divideOut steps units (down - 308 * steps)

/-- The greatest exponent that is computed with. Beyond it a numeral is zero, or too large. -/
def maxExponent : Nat := 0x7FFFFFFF

/-- The magnitude of a numeral as a binary64 number, in units. -/
def Numeral.realUnits? (n : Numeral) : Option Nat := do
  let (whole, dropped) := absorb 0 n.whole
  let fraction := n.fraction.getD []
  let (digits, unread) := absorb whole fraction
  let point : Int := dropped.length - (fraction.length - unread.length : Nat)
  let units ← Binary64.roundUnits digits 1
  match n.exponent with
  | none => scale? units point
  | some e =>
    let size := digitsValue e.digits
    if maxExponent < size then
      if digits = 0 ∨ e.negative then some 0 else none
    else scale? units (if e.negative then point - size else point + size)

/-- The number that a numeral denotes; `none` when its magnitude is too large. -/
def Numeral.number? (n : Numeral) : Option Number :=
  let value := digitsValue n.whole
  let isLiteral := n.fraction.isNone && n.exponent.isNone
  if isLiteral && !n.negative && value ≤ maxNatural then some (.integer value)
  else if isLiteral && n.negative && 0 < value && value ≤ maxNegated then
    some (.integer (-value))
  else n.realUnits?.map fun units => .real ⟨n.negative, units⟩

end HttpEcho.Json
