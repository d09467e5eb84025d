import HttpEcho.Number.Binary64

/-! The shortest decimal that reads back.

Of all decimals that round to a given magnitude, `shortest` gives one with the fewest digits, and
among those the nearest. On each decimal grid only the two neighbours of the magnitude can be it:
if any point of the grid lies in the interval that rounds to the magnitude, so does one of them.
What happens to an exact tie between the two is for the caller to say. -/
namespace HttpEcho

/-- Which neighbour an exact tie takes. -/
inductive Tie where
  | toEven
  | up
  deriving DecidableEq, Repr

/-- A decimal: `digits * 10 ^ exponent`. -/
structure Decimal where
  digits : Nat
  exponent : Int
  deriving DecidableEq, Repr

namespace Binary64

/-- The reals that round to a magnitude, in quarters of a unit, and whether its ends belong. -/
structure Interval where
  low : Nat
  high : Nat
  closed : Bool

/-- Half a step down and half a step up. Below a power of two the steps are half as wide. -/
def Interval.ofUnits (units : Nat) : Interval :=
  let step := Nat.pow 2 (lastBit units)
  let below := if units = Nat.pow 2 52 * step ∧ 1 < step then step else 2 * step
  ⟨4 * units - below, 4 * units + 2 * step, units / step % 2 = 0⟩

/-- Whether `quarters * num / den` lies in the interval. -/
def Interval.contains (i : Interval) (point den num : Nat) : Bool :=
  let p := 4 * point * den
  if i.closed then i.low * num ≤ p && p ≤ i.high * num
  else i.low * num < p && p < i.high * num

/-- `2 ^ -1074 * units / 10 ^ e` as a numerator's factor and a denominator. -/
def gridRatio (e : Int) : Nat × Nat :=
  if 0 ≤ e then (1, unitsPerOne * Nat.pow 10 e.toNat) else (Nat.pow 10 (-e).toNat, unitsPerOne)

/-- The greatest `e` with `10 ^ e` at most the magnitude, from a bound that is at most `tries` too
small. -/
def decadeFrom (units : Nat) : (tries : Nat) → (e : Int) → Int
  | 0, e => e
  | n + 1, e =>
    let (num, den) := gridRatio (e + 1)
    if den ≤ units * num then decadeFrom units n (e + 1) else e

/-- The decimal exponent of a magnitude's first digit. -/
def decade (units : Nat) : Int :=
  decadeFrom units 4 (((units.log2 : Int) - 1074) * 30103 / 100000 - 1)

/-- A decimal with the exponent `e` that reads back, the nearer of two. -/
def onGrid? (tie : Tie) (units : Nat) (e : Int) : Option Decimal :=
  let (num, den) := gridRatio e
  let i := Interval.ofUnits units
  let q := units * num / den
  let twice := 2 * units * num
  let middle := (2 * q + 1) * den
  match i.contains q den num, i.contains (q + 1) den num with
  | true, true =>
    let up := middle < twice || (middle = twice && (tie = .up || q % 2 = 1))
    some ⟨if up then q + 1 else q, e⟩
  | true, false => some ⟨q, e⟩
  | false, true => some ⟨q + 1, e⟩
  | false, false => none

/-- The first hit on ever finer grids. -/
def shortestFrom (tie : Tie) (units : Nat) : (grids : Nat) → (e : Int) → Decimal
  | 0, e => ⟨units, e⟩
  | n + 1, e =>
    match onGrid? tie units e with
    | some d => d
    | none => shortestFrom tie units n (e - 1)

/-- The shortest decimal that rounds to a magnitude. Seventeen digits always do. -/
def shortest (tie : Tie) (units : Nat) : Decimal :=
  if units = 0 then ⟨0, 0⟩ else shortestFrom tie units 17 (decade units)

end Binary64

/-! ### Digits -/

/-- The significant digits of a decimal, without zeros at the end, and how many of them stand
before the point. -/
structure Significant where
  digits : List Char
  point : Int
  deriving DecidableEq, Repr

/-- The written digits of a decimal. Zero is one digit before the point. -/
def Decimal.significant (d : Decimal) : Significant :=
  let all := Nat.toDigits 10 d.digits
  let kept := (all.reverse.dropWhile (· == '0')).reverse
  if kept.isEmpty then ⟨['0'], 1⟩ else ⟨kept, all.length + d.exponent⟩

/-- The digits in place: zeros up to the point, and a fraction of at least one digit. -/
def Significant.positional (s : Significant) : List Char :=
  let n := s.digits.length
  if s.point ≤ 0 then
    '0' :: '.' :: (List.replicate (-s.point).toNat '0' ++ s.digits)
  else if (n : Int) ≤ s.point then
    s.digits ++ List.replicate (s.point.toNat - n) '0' ++ ['.', '0']
  else s.digits.take s.point.toNat ++ '.' :: s.digits.drop s.point.toNat

/-- One digit before the point, then a signed exponent. A single digit has no point. -/
def Significant.scientific (s : Significant) : List Char :=
  let e := s.point - 1
  let mantissa := match s.digits with
    | d :: r@(_ :: _) => d :: '.' :: r
    | short => short
  let sign := if e < 0 then '-' else '+'
  mantissa ++ 'e' :: sign :: Nat.toDigits 10 e.natAbs

end HttpEcho
