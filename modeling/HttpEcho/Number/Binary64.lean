/-! Finite binary64 numbers, exactly.

A magnitude is counted in the least positive one, `2 ^ -1074`: every finite magnitude is a whole
number of those units, so all arithmetic is on natural numbers. An operation computes the exact
quotient and rounds it once (`roundUnits`), to 53 significant bits and to the even neighbour on a
tie; what reaches `2 ^ 1024` has no finite value. -/
namespace HttpEcho

/-- The quotient rounded to the nearest whole number, a half to the even neighbour. -/
def divRound (num den : Nat) : Nat :=
  let q := num / den
  let r := num % den
  if 2 * r < den then q else if den < 2 * r then q + 1 else q + q % 2

/-- A finite binary64 number: its sign, and its magnitude in units of `2 ^ -1074`. -/
structure Binary64 where
  negative : Bool
  units : Nat
  deriving DecidableEq, Repr

namespace Binary64

/-- How many units make one. -/
def unitsPerOne : Nat := Nat.pow 2 1074

/-- The first magnitude that is not finite, in units. -/
def unitsLimit : Nat := Nat.pow 2 2098

/-- The weight of the last of 53 significant bits of a magnitude, as a power of two of units. -/
def lastBit (units : Nat) : Nat :=
  units.log2 - 52

/-- The magnitude nearest to `num / den`, in units; `none` from `2 ^ 1024` on. -/
def roundUnits (num den : Nat) : Option Nat :=
  let scaled := num * unitsPerOne
  let step := Nat.pow 2 (lastBit (scaled / den))
  let units := divRound scaled (den * step) * step
  if units < unitsLimit then some units else none

/-- The number nearest to `m * 10 ^ e`. An exponent that alone decides is not raised to. -/
def ofDecimal (negative : Bool) (m : Nat) (e : Int) : Option Binary64 :=
  let width : Int := (Nat.toDigits 10 m).length
  if m = 0 then some ⟨negative, 0⟩
  else if 310 < width + e then none
  else if width + e < -330 then some ⟨negative, 0⟩
  else if 0 ≤ e then (roundUnits (m * Nat.pow 10 e.toNat) 1).map (⟨negative, ·⟩)
  else (roundUnits m (Nat.pow 10 (-e).toNat)).map (⟨negative, ·⟩)

/-- The magnitude of a product, in units. -/
def mulUnits (a b : Nat) : Option Nat :=
  roundUnits (a * b) (unitsPerOne * unitsPerOne)

/-- The magnitude of a quotient, in units. -/
def divUnits (a b : Nat) : Option Nat :=
  roundUnits a b

/-- The magnitude nearest to a power of ten, in units. -/
def powTen (e : Nat) : Option Nat :=
  roundUnits (Nat.pow 10 e) 1

end Binary64

end HttpEcho
