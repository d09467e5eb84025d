import HttpEcho.Proofs.Json.Numerals
import HttpEcho.Proofs.Number.Unsigned
import Mathlib.Algebra.Order.Field.Power
import Mathlib.Algebra.Order.Field.Rat

/-! The magnitude that a numeral spells, whatever number it is converted to. -/
namespace HttpEcho.Json

/-! ### Digits -/

theorem digitsValue_append (v w : List Char) :
    digitsValue (v ++ w) = digitsValue v * 10 ^ w.length + digitsValue w := by
  show Nat.ofDigitChars 10 (v ++ w) 0 = _
  rw [Nat.ofDigitChars_append, Nat.ofDigitChars_eq_ofDigitChars_zero, Nat.mul_comm]
  rfl

theorem digitsValue_lt {w : List Char} (h : ∀ c ∈ w, c.isDigit) :
    digitsValue w < 10 ^ w.length := by
  induction w with
  | nil => decide
  | cons c w ih =>
    obtain ⟨hc, hw⟩ := List.forall_mem_cons.mp h
    have hdigit : digitsValue [c] < 10 := by
      have hlt := (Unsigned.digitChar_of_isDigit hc).2
      exact lt_of_eq_of_lt (Nat.zero_add _) hlt
    have hcons : digitsValue (c :: w) = digitsValue [c] * 10 ^ w.length + digitsValue w :=
      digitsValue_append [c] w
    have hmul := Nat.mul_le_mul_right (10 ^ w.length) hdigit
    rw [Nat.succ_mul] at hmul
    have hrest := ih hw
    rw [hcons, List.length_cons, Nat.pow_succ']
    omega

theorem digitsValue_replicate (k : ℕ) : digitsValue (List.replicate k '0') = 0 := by
  induction k with
  | zero => rfl
  | succ k ih => exact ih

/-- Zeros in front do not count. -/
theorem digitsValue_zeros_append (k : ℕ) (w : List Char) :
    digitsValue (List.replicate k '0' ++ w) = digitsValue w := by
  rw [digitsValue_append, digitsValue_replicate, Nat.zero_mul, Nat.zero_add]

theorem digitsValue_append_zeros (w : List Char) (k : ℕ) :
    digitsValue (w ++ List.replicate k '0') = digitsValue w * 10 ^ k := by
  rw [digitsValue_append, digitsValue_replicate, List.length_replicate, Nat.add_zero]

/-! ### Numerals -/

namespace Numeral

/-- The digits behind the point -/
def decimals (n : Numeral) : List Char := n.fraction.getD []

/-- All digits of a numeral but those of its exponent -/
def digits (n : Numeral) : List Char := n.whole ++ n.decimals

/-- The exponent that is written -/
def power (n : Numeral) : ℤ :=
  match n.exponent with
  | none => 0
  | some e => if e.negative then -digitsValue e.digits else digitsValue e.digits

/-- The magnitude that a numeral spells -/
def magnitude (n : Numeral) : ℚ := digitsValue n.digits * 10 ^ (n.power - n.decimals.length)

/-- The magnitude of a numeral without an exponent -/
theorem magnitude_fraction (negative : Bool) (w f : List Char) :
    magnitude ⟨negative, w, some f, none⟩ = digitsValue (w ++ f) * 10 ^ (-f.length : ℤ) := by
  rw [magnitude, power, decimals, zero_sub]
  rfl

theorem magnitude_nonneg (n : Numeral) : 0 ≤ n.magnitude :=
  mul_nonneg (Nat.cast_nonneg _) (zpow_nonneg (by norm_num) _)

end Numeral

theorem Grammar.IsFraction.isDigit {w : List Char} {fraction : Option (List Char)}
    (h : IsFraction w fraction) :
    (∀ c ∈ fraction.getD [], c.isDigit) ∧ (fraction.getD []).length ≤ w.length := by
  cases h with
  | none => exact ⟨nofun, Nat.zero_le _⟩
  | digits hw => exact ⟨hw.2, Nat.le_succ _⟩

end HttpEcho.Json
