import HttpEcho.Number.Shortest
import HttpEcho.Proofs.Number.Rounding
import Mathlib.Algebra.Order.Field.Power
import Mathlib.Tactic.NormNum.Pow

/-! The binary64 numbers that decimals are read as.

A decimal is read as what it rounds to, if that is finite (`ofDecimal_eq_some_iff`): where its
exponent alone decides, rounding comes to the same. -/
namespace HttpEcho

/-- The number that a decimal is. -/
def Decimal.value (d : Decimal) : ℚ := d.digits * 10 ^ d.exponent

theorem Decimal.value_nonneg (d : Decimal) : 0 ≤ d.value :=
  mul_nonneg (Nat.cast_nonneg _) (zpow_nonneg (by norm_num) _)

theorem toDigits_bounds {m : ℕ} (hm : 0 < m) :
    10 ^ ((Nat.toDigits 10 m).length - 1) ≤ m ∧ m < 10 ^ (Nat.toDigits 10 m).length := by
  have hpos : 0 < (Nat.toDigits 10 m).length := List.length_pos_iff.mpr Nat.toDigits_ne_nil
  refine ⟨?_, (Nat.length_toDigits_le_iff (by decide) hpos).mp le_rfl⟩
  rcases Nat.eq_zero_or_pos ((Nat.toDigits 10 m).length - 1) with hone | hmore
  · rw [hone]
    exact hm
  · refine Nat.not_lt.mp (mt (Nat.length_toDigits_le_iff (by decide) hmore).mpr ?_)
    omega

namespace Binary64
variable {u v : ℕ} {x y : ℚ} {d : Decimal}

/-- A decimal rounds to a magnitude. -/
def ReadsBack (d : Decimal) (u : ℕ) : Prop := RoundsTo (d.value * unitsPerOne) u

theorem unitsLimit_eq : unitsLimit = 2 ^ 1024 * unitsPerOne := by decide +kernel

theorem isFloat_unitsLimit : IsFloat unitsLimit :=
  ⟨1, 2098, by decide, by decide +kernel⟩

theorem unitsPerOne_pos : 0 < unitsPerOne := by decide +kernel

theorem cast_unitsPerOne_pos : (0 : ℚ) < unitsPerOne := Nat.cast_pos.mpr unitsPerOne_pos

/-! ### Order -/

theorem IsFloat.roundsTo (h : IsFloat u) : RoundsTo u u := by
  refine ⟨h, fun v _ => ?_, fun v _ hne heq => ?_⟩
  · rw [sub_self, abs_zero]
    exact abs_nonneg _
  · rw [sub_self, abs_zero, eq_comm, abs_eq_zero, sub_eq_zero] at heq
    exact absurd (Nat.cast_injective heq).symm hne

/-- What is at least a float rounds to it or beyond. -/
theorem RoundsTo.le_of_le (h : RoundsTo x u) (hv : IsFloat v) (hle : v ≤ x) : v ≤ u := by
  by_contra hlt
  have hlt : (u : ℚ) < v := by exact_mod_cast Nat.not_le.mp hlt
  have hnear := h.nearest v hv
  rw [abs_of_pos (by linarith), abs_of_nonneg (by linarith)] at hnear
  linarith

/-- What is between two numbers that round to a float does so, too. -/
theorem RoundsTo.between {z : ℚ} (hx : RoundsTo x u) (hz : RoundsTo z u) (hnonneg : 0 ≤ x)
    (hxy : x ≤ y) (hyz : y ≤ z) : RoundsTo y u := by
  obtain ⟨hlow, hhigh, heven⟩ := hx.isNear hnonneg
  obtain ⟨hlow', hhigh', heven'⟩ := hz.isNear (by linarith)
  refine (roundsTo_iff (by linarith)).mpr ⟨hx.float, by linarith, by linarith, ?_⟩
  rintro (heq | heq)
  · exact heven (.inl (by linarith))
  · exact heven' (.inr (by linarith))

/-! ### Reading -/

theorem roundsTo_zero : RoundsTo 0 0 := by
  rw [← Nat.cast_zero]
  exact isFloat_zero.roundsTo

/-- What is less than half of the least magnitude rounds to zero. -/
theorem roundsTo_zero_of_lt (hx : 0 ≤ x) (hlt : x < 1 / 2) : RoundsTo x 0 := by
  have hdown : (0 : ℚ) < stepDown 0 := by exact_mod_cast stepDown_pos 0
  have hup : ((step 0 : ℕ) : ℚ) = 1 := Nat.cast_one
  refine (roundsTo_iff hx).mpr ⟨isFloat_zero, ?_, ?_, fun _ => ⟨0, rfl⟩⟩
  · rw [Nat.cast_zero]
    linarith
  · rw [Nat.cast_zero, hup]
    linarith

section
variable {m : ℕ} {e : ℤ} {negative : Bool} {b : Binary64}

theorem zpow_width_bounds (hm : 0 < m) :
    (10 : ℚ) ^ ((Nat.toDigits 10 m).length - 1 : ℤ) ≤ m ∧
      (m : ℚ) < 10 ^ ((Nat.toDigits 10 m).length : ℤ) := by
  obtain ⟨hge, hlt⟩ := toDigits_bounds hm
  have hpos : 1 ≤ (Nat.toDigits 10 m).length := List.length_pos_iff.mpr Nat.toDigits_ne_nil
  rw [← Nat.cast_one, ← Nat.cast_sub hpos, zpow_natCast, zpow_natCast]
  exact ⟨by exact_mod_cast hge, by exact_mod_cast hlt⟩

theorem readsBack_natPow (m k : ℕ) :
    ReadsBack ⟨m, k⟩ u ↔ RoundsTo (((m * Nat.pow 10 k : ℕ) : ℚ) * unitsPerOne / (1 : ℕ)) u := by
  have hvalue : Decimal.value ⟨m, k⟩ = ((m * Nat.pow 10 k : ℕ) : ℚ) := by
    rw [Decimal.value, zpow_natCast, Nat.cast_mul]
    exact congrArg _ (Nat.cast_pow 10 k).symm
  rw [ReadsBack, hvalue, Nat.cast_one, div_one]

theorem readsBack_neg_natPow (m k : ℕ) :
    ReadsBack ⟨m, -k⟩ u ↔ RoundsTo (m * unitsPerOne / (Nat.pow 10 k : ℕ)) u := by
  have hvalue : Decimal.value ⟨m, -k⟩ = m / (Nat.pow 10 k : ℕ) := by
    have hpow : ((Nat.pow 10 k : ℕ) : ℚ) = 10 ^ k := Nat.cast_pow 10 k
    rw [Decimal.value, zpow_neg, zpow_natCast, hpow, div_eq_mul_inv]
  rw [ReadsBack, hvalue, div_mul_eq_mul_div]

/-- An exponent that is large makes a decimal larger than all finite numbers. -/
theorem unitsLimit_le_of_width (hm : 0 < m) (he : 310 < (Nat.toDigits 10 m).length + e) :
    (unitsLimit : ℚ) ≤ Decimal.value ⟨m, e⟩ * unitsPerOne := by
  have hpow : ((2 ^ 1024 : ℕ) : ℚ) ≤ (10 ^ 310 : ℕ) := Nat.cast_le.mpr (by decide +kernel)
  have hvalue : ((10 ^ 310 : ℕ) : ℚ) ≤ Decimal.value ⟨m, e⟩ := by
    calc ((10 ^ 310 : ℕ) : ℚ) = 10 ^ (310 : ℤ) := by rw [Nat.cast_pow, Nat.cast_ofNat]; rfl
      _ ≤ 10 ^ ((Nat.toDigits 10 m).length - 1 + e : ℤ) :=
        zpow_le_zpow_right₀ (by norm_num) (by omega)
      _ = 10 ^ ((Nat.toDigits 10 m).length - 1 : ℤ) * 10 ^ e := zpow_add₀ (by norm_num) _ _
      _ ≤ m * 10 ^ e := mul_le_mul_of_nonneg_right (zpow_width_bounds hm).1 (by positivity)
  rw [unitsLimit_eq, Nat.cast_mul]
  exact mul_le_mul_of_nonneg_right (hpow.trans hvalue) cast_unitsPerOne_pos.le

theorem value_lt_of_width (hm : 0 < m) (he : (Nat.toDigits 10 m).length + e < -330) :
    Decimal.value ⟨m, e⟩ * unitsPerOne < 1 / 2 := by
  have hpow : ((2 * unitsPerOne : ℕ) : ℚ) < (10 ^ 331 : ℕ) := Nat.cast_lt.mpr (by decide +kernel)
  have hvalue : Decimal.value ⟨m, e⟩ < ((10 ^ 331 : ℕ) : ℚ)⁻¹ := by
    calc Decimal.value ⟨m, e⟩ = m * 10 ^ e := rfl
      _ < 10 ^ ((Nat.toDigits 10 m).length : ℤ) * 10 ^ e :=
        mul_lt_mul_of_pos_right (zpow_width_bounds hm).2 (by positivity)
      _ = 10 ^ ((Nat.toDigits 10 m).length + e : ℤ) := (zpow_add₀ (by norm_num) _ _).symm
      _ ≤ 10 ^ (-331 : ℤ) := zpow_le_zpow_right₀ (by norm_num) (by omega)
      _ = ((10 ^ 331 : ℕ) : ℚ)⁻¹ := by rw [zpow_neg, Nat.cast_pow, Nat.cast_ofNat]; rfl
  have hpos : (0 : ℚ) < (10 ^ 331 : ℕ) := (Nat.cast_nonneg _).trans_lt hpow
  rw [Nat.cast_mul, Nat.cast_ofNat] at hpow
  generalize ((10 ^ 331 : ℕ) : ℚ) = large at *
  calc Decimal.value ⟨m, e⟩ * unitsPerOne < large⁻¹ * unitsPerOne :=
        mul_lt_mul_of_pos_right hvalue cast_unitsPerOne_pos
    _ < large⁻¹ * (large / 2) := mul_lt_mul_of_pos_left (by linarith) (inv_pos.mpr hpos)
    _ = 1 / 2 := by field_simp

/-- **A decimal is read as what it rounds to**, if that is finite. -/
theorem ofDecimal_eq_some_iff : ofDecimal negative m e = some b ↔
    b.negative = negative ∧ b.units < unitsLimit ∧ ReadsBack ⟨m, e⟩ b.units := by
  obtain ⟨sign, units⟩ := b
  have hnonneg : 0 ≤ Decimal.value ⟨m, e⟩ * unitsPerOne :=
    mul_nonneg (Decimal.value_nonneg _) cast_unitsPerOne_pos.le
  -- Zero is read wherever that is what the decimal rounds to.
  have hzero (h : ReadsBack ⟨m, e⟩ 0) : some (⟨negative, 0⟩ : Binary64) = some ⟨sign, units⟩ ↔
      sign = negative ∧ units < unitsLimit ∧ ReadsBack ⟨m, e⟩ units := by
    rw [Option.some.injEq, Binary64.mk.injEq]
    constructor
    · rintro ⟨rfl, rfl⟩
      exact ⟨rfl, by decide +kernel, h⟩
    · rintro ⟨rfl, -, hunits⟩
      exact ⟨rfl, h.unique hnonneg hunits⟩
  have hround (num den : ℕ) (hden : 0 < den)
      (h : ∀ u, ReadsBack ⟨m, e⟩ u ↔ RoundsTo (num * unitsPerOne / den) u) :
      (roundUnits num den).map (⟨negative, ·⟩ : ℕ → Binary64) = some ⟨sign, units⟩ ↔
        sign = negative ∧ units < unitsLimit ∧ ReadsBack ⟨m, e⟩ units := by
    rw [Option.map_eq_some_iff, h]
    simp only [roundUnits_eq_some_iff hden, Binary64.mk.injEq]
    constructor
    · rintro ⟨u, hu, rfl, rfl⟩
      exact ⟨rfl, hu⟩
    · rintro ⟨rfl, hu⟩
      exact ⟨units, hu, rfl, rfl⟩
  unfold ofDecimal
  dsimp only
  split
  · next hm =>
    refine hzero ?_
    rw [ReadsBack, hm, Decimal.value, Nat.cast_zero, zero_mul, zero_mul]
    exact roundsTo_zero
  next hm =>
  have hm := Nat.pos_of_ne_zero hm
  split
  · next he =>
    refine iff_of_false nofun fun h => ?_
    have hle := h.2.2.le_of_le isFloat_unitsLimit (unitsLimit_le_of_width hm he)
    exact absurd h.2.1 (Nat.not_lt.mpr hle)
  split
  · next he => exact hzero (roundsTo_zero_of_lt hnonneg (value_lt_of_width hm he))
  split
  · next he =>
    obtain ⟨k, rfl⟩ := Int.eq_ofNat_of_zero_le he
    exact hround _ _ one_pos fun u => readsBack_natPow m k
  · next he =>
    obtain ⟨k, rfl⟩ := Int.exists_eq_neg_ofNat (le_of_not_ge he)
    rw [neg_neg, Int.toNat_natCast]
    exact hround _ _ (Nat.pow_pos (by decide)) fun u => readsBack_neg_natPow m k

end

end Binary64
end HttpEcho
