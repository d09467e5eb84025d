import HttpEcho.Number.Binary64
import Mathlib.Algebra.Order.Field.Rat
import Mathlib.Algebra.Order.Ring.Abs
import Mathlib.Algebra.Ring.Parity
import Mathlib.Tactic.FieldSimp
import Mathlib.Tactic.Linarith
import Mathlib.Tactic.Positivity
import Mathlib.Tactic.Ring

/-! What rounding to binary64 gives.

`IsFloat` says which magnitudes have 53 significant bits, `RoundsTo` which of them a number rounds
to: the nearest, and of two the one whose last bit is zero. There is one (`RoundsTo.unique`), and
`roundUnits` gives it where it is finite (`roundUnits_eq_some_iff`). -/
namespace HttpEcho

/-! ### Whole numbers -/

/-- A quotient is rounded by a half at most, and where that is not less the result is even. -/
theorem divRound_spec (num : ℕ) {den : ℕ} (hden : 0 < den) :
    2 * (divRound num den * den) ≤ 2 * num + den ∧ 2 * num ≤ 2 * (divRound num den * den) + den ∧
      (2 * num + den = 2 * (divRound num den * den) ∨ 2 * num = 2 * (divRound num den * den) + den →
        divRound num den % 2 = 0) := by
  have hsplit := Nat.div_add_mod' num den
  have hlt := Nat.mod_lt num hden
  have hup : (num / den + 1) * den = num / den * den + den := Nat.succ_mul _ _
  unfold divRound
  dsimp only
  generalize num / den = q at *
  generalize num % den = r at *
  split
  · omega
  split
  · omega
  · rcases Nat.mod_two_eq_zero_or_one q with heven | hodd
    · rw [heven, Nat.add_zero]
      omega
    · rw [hodd]
      omega

section
variable {num den : ℕ} (hden : 0 < den)
include hden

theorem abs_sub_divRound_le (num : ℕ) : |(num / den : ℚ) - divRound num den| ≤ 1 / 2 := by
  obtain ⟨hle, hge, -⟩ := divRound_spec num hden
  have hpos : (0 : ℚ) < den := by exact_mod_cast hden
  have hle : 2 * ((divRound num den : ℚ) * den) ≤ 2 * num + den := by exact_mod_cast hle
  have hge : 2 * (num : ℚ) ≤ 2 * (divRound num den * den) + den := by exact_mod_cast hge
  rw [abs_le, sub_le_iff_le_add, div_le_iff₀ hpos, le_sub_iff_add_le, le_div_iff₀ hpos]
  constructor <;> linarith

theorem divRound_even (h : |(num / den : ℚ) - divRound num den| = 1 / 2) :
    divRound num den % 2 = 0 := by
  have hpos : (0 : ℚ) < den := by exact_mod_cast hden
  have hnum : (num / den : ℚ) * den = num := div_mul_cancel₀ _ hpos.ne'
  refine (divRound_spec num hden).2.2 ?_
  rcases (abs_eq (by norm_num)).mp h with h | h
  · right
    have h : (2 * num : ℚ) = 2 * (divRound num den * den) + den := by
      rw [← hnum, sub_eq_iff_eq_add.mp h]
      ring
    exact_mod_cast h
  · left
    have h : (2 * num + den : ℚ) = 2 * (divRound num den * den) := by
      rw [← hnum, sub_eq_iff_eq_add.mp h]
      ring
    exact_mod_cast h

end

namespace Binary64
variable {u v num den k m : ℕ} {x : ℚ}

/-! ### Floats -/

/-- A magnitude of at most 53 significant bits. -/
def IsFloat (u : ℕ) : Prop := ∃ m e, m < 2 ^ 53 ∧ u = m * 2 ^ e

/-- From one float to the next. -/
def step (u : ℕ) : ℕ := 2 ^ lastBit u

theorem step_pos (u : ℕ) : 0 < step u := Nat.two_pow_pos _

theorem step_eq_two_mul (h : lastBit u ≠ 0) : step u = 2 * 2 ^ (lastBit u - 1) :=
  (mul_pow_sub_one h 2).symm

theorem lt_step_mul (u : ℕ) : u < 2 ^ 53 * step u := by
  unfold step lastBit
  rw [← Nat.pow_add]
  exact Nat.lt_of_lt_of_le Nat.lt_log2_self (Nat.pow_le_pow_right two_pos (by omega))

/-- Only where the last bit is the least are there zeros in front. -/
theorem step_mul_le (h : lastBit u ≠ 0) : 2 ^ 52 * step u ≤ u := by
  unfold step lastBit at *
  have hu : u ≠ 0 := by
    rintro rfl
    exact h rfl
  rw [← Nat.pow_add, show 52 + (u.log2 - 52) = u.log2 by omega]
  exact Nat.log2_self_le hu

theorem lastBit_eq (hlt : u < 2 ^ 53 * 2 ^ k) (hle : k = 0 ∨ 2 ^ 52 * 2 ^ k ≤ u) :
    lastBit u = k := by
  rw [← Nat.pow_add] at hlt hle
  unfold lastBit
  rcases Nat.eq_zero_or_pos u with rfl | hu
  · have hpos := Nat.two_pow_pos (52 + k)
    rcases hle with rfl | hle
    · rfl
    · omega
  · have hlog : u.log2 < 53 + k := (Nat.log2_lt hu.ne').mpr hlt
    rcases hle with rfl | hle
    · omega
    · have hlog' : 52 + k ≤ u.log2 := (Nat.le_log2 hu.ne').mpr hle
      omega

theorem lastBit_mono (h : u ≤ v) : lastBit u ≤ lastBit v := by
  unfold lastBit
  rcases Nat.eq_zero_or_pos u with rfl | hu
  · exact Nat.zero_le _
  · have hlog : u.log2 ≤ v.log2 :=
      (Nat.le_log2 (by omega)).mpr ((Nat.log2_self_le hu.ne').trans h)
    omega

theorem step_dvd_step (h : u ≤ v) : step u ∣ step v :=
  Nat.pow_dvd_pow 2 (lastBit_mono h)

/-- A magnitude is a float when nothing is behind its last bit. -/
theorem isFloat_iff : IsFloat u ↔ step u ∣ u := by
  constructor
  · rintro ⟨m, e, hm, rfl⟩
    refine dvd_mul_of_dvd_right (Nat.pow_dvd_pow 2 ?_) m
    unfold lastBit
    rcases Nat.eq_zero_or_pos m with rfl | hpos
    · rw [Nat.zero_mul]
      exact Nat.zero_le _
    · have hlog : (m * 2 ^ e).log2 < 53 + e := by
        refine (Nat.log2_lt (Nat.mul_pos hpos (Nat.two_pow_pos e)).ne').mpr ?_
        rw [Nat.pow_add]
        exact Nat.mul_lt_mul_of_pos_right hm (Nat.two_pow_pos e)
      omega
  · rintro ⟨m, hm⟩
    refine ⟨m, lastBit u, ?_, hm.trans (Nat.mul_comm _ _)⟩
    refine Nat.lt_of_mul_lt_mul_left (a := step u) ?_
    rw [← hm, Nat.mul_comm]
    exact lt_step_mul u

theorem isFloat_mul (hm : m ≤ 2 ^ 53) (k : ℕ) : IsFloat (m * 2 ^ k) := by
  rcases Nat.lt_or_eq_of_le hm with hm | rfl
  · exact ⟨m, k, hm, rfl⟩
  · exact ⟨2 ^ 52, k + 1, by decide, by ring⟩

/-! ### Neighbours -/

/-- The significant bits of a float. -/
theorem IsFloat.exists_mul_step (h : IsFloat u) : ∃ m < 2 ^ 53, u = m * step u := by
  obtain ⟨m, hm⟩ := isFloat_iff.mp h
  have hm : u = m * step u := hm.trans (Nat.mul_comm _ _)
  refine ⟨m, ?_, hm⟩
  refine Nat.lt_of_mul_lt_mul_right (a := step u) ?_
  rw [← hm]
  exact lt_step_mul u

theorem IsFloat.add_step (h : IsFloat u) : IsFloat (u + step u) := by
  obtain ⟨m, hlt, hm⟩ := h.exists_mul_step
  have hnext : u + step u = (m + 1) * 2 ^ lastBit u := by
    rw [Nat.succ_mul]
    exact congrArg (· + step u) hm
  rw [hnext]
  exact isFloat_mul hlt _

/-- A greater float is a step away at least. -/
theorem add_step_le (hu : IsFloat u) (hv : IsFloat v) (h : u < v) : u + step u ≤ v := by
  have hdvd : step u ∣ v - u :=
    Nat.dvd_sub ((step_dvd_step h.le).trans (isFloat_iff.mp hv)) (isFloat_iff.mp hu)
  have hle := Nat.le_of_dvd (Nat.sub_pos_of_lt h) hdvd
  omega

/-- From a float down to the one before. -/
def stepDown (u : ℕ) : ℕ :=
  if u = 2 ^ 52 * step u ∧ 1 < step u then step u / 2 else step u

/-- Inside its binade a float has all steps below it. -/
theorem IsFloat.succ_mul_step_le (h : IsFloat u) (hbit : lastBit u ≠ 0)
    (hinside : ¬ (u = 2 ^ 52 * step u ∧ 1 < step u)) : (2 ^ 52 + 1) * step u ≤ u := by
  obtain ⟨m, -, hm⟩ := h.exists_mul_step
  have hfull := step_mul_le hbit
  have htwo := step_eq_two_mul hbit
  have hpos := Nat.two_pow_pos (lastBit u - 1)
  have hnext : 2 ^ 52 < m := by
    refine Nat.lt_of_mul_lt_mul_right (a := step u) ?_
    omega
  exact (Nat.mul_le_mul_right (step u) hnext).trans hm.ge

theorem stepDown_le (u : ℕ) : stepDown u ≤ step u := by
  unfold stepDown
  split
  · exact Nat.div_le_self _ _
  · exact le_rfl

/-- A smaller float is a step down away at least. -/
theorem add_stepDown_le (hu : IsFloat u) (hv : IsFloat v) (h : u < v) : u + stepDown v ≤ v := by
  rcases (lastBit_mono h.le).eq_or_lt with hsame | hless
  · have hstep : step u = step v := congrArg (2 ^ ·) hsame
    have hdown := stepDown_le v
    have hgap := add_step_le hu hv h
    omega
  · -- A step from `u` is at most half a step from `v`.
    have hhalf := step_eq_two_mul (u := v) (by omega)
    have hle : step u ≤ 2 ^ (lastBit v - 1) := Nat.pow_le_pow_right two_pos (by omega)
    generalize 2 ^ (lastBit v - 1) = half at hhalf hle
    obtain ⟨m, hm, hu⟩ := hu.exists_mul_step
    have hbelow : u ≤ (2 ^ 53 - 1) * half := by
      rw [hu]
      exact Nat.mul_le_mul (by omega) hle
    have hfull := step_mul_le (u := v) (by omega)
    unfold stepDown
    split
    · omega
    · next hinside =>
      have hnext := hv.succ_mul_step_le (by omega) hinside
      omega

theorem IsFloat.sub_stepDown (h : IsFloat u) : IsFloat (u - stepDown u) := by
  obtain ⟨m, hlt, hm⟩ := h.exists_mul_step
  unfold stepDown
  split
  · next hedge =>
    have hhalf : step u = 2 * 2 ^ (lastBit u - 1) := by
      refine step_eq_two_mul fun hzero => ?_
      have hone : step u = 1 := congrArg (2 ^ ·) hzero
      omega
    have hbefore : u - step u / 2 = (2 ^ 53 - 1) * 2 ^ (lastBit u - 1) := by
      omega
    rw [hbefore]
    exact isFloat_mul (by decide) _
  · have hbefore : u - step u = (m - 1) * 2 ^ lastBit u := by
      rw [Nat.sub_mul, Nat.one_mul]
      exact congrArg (· - step u) hm
    rw [hbefore]
    exact isFloat_mul (by omega) _

/-! ### Rounding -/

/-- A number rounds to the nearest float, and to the one whose last bit is zero if there are two. -/
structure RoundsTo (x : ℚ) (u : ℕ) : Prop where
  float : IsFloat u
  nearest : ∀ v, IsFloat v → |x - u| ≤ |x - v|
  even : ∀ v, IsFloat v → v ≠ u → |x - u| = |x - v| → Even (u / step u)

theorem stepDown_pos (u : ℕ) : 0 < stepDown u := by
  unfold stepDown
  split
  · next hedge => exact Nat.div_pos hedge.2 two_pos
  · exact step_pos u

theorem isFloat_zero : IsFloat 0 := ⟨0, 0, by decide, rfl⟩

theorem stepDown_le_self (h : IsFloat u) (hu : 0 < u) : stepDown u ≤ u := by
  have hle := add_stepDown_le isFloat_zero h hu
  omega

/-- A number is half way to the neighbours of a magnitude at most, and nearer if the last bit of the
magnitude is one. -/
structure IsNear (x : ℚ) (u : ℕ) : Prop where
  low : u - stepDown u / 2 ≤ x
  high : x ≤ u + step u / 2
  even : x = u - stepDown u / 2 ∨ x = u + step u / 2 → Even (u / step u)

theorem RoundsTo.isNear (hx : 0 ≤ x) (h : RoundsTo x u) : IsNear x u := by
  have hup : (0 : ℚ) < step u := by exact_mod_cast step_pos u
  have hdown : (0 : ℚ) < stepDown u := by exact_mod_cast stepDown_pos u
  have habove : ((u + step u : ℕ) : ℚ) = u + step u := Nat.cast_add _ _
  have hbelow (hu : 0 < u) : ((u - stepDown u : ℕ) : ℚ) = u - stepDown u :=
    Nat.cast_sub (stepDown_le_self h.float hu)
  refine ⟨?_, ?_, ?_⟩
  · by_contra hlow
    rcases Nat.eq_zero_or_pos u with rfl | hu
    · rw [Nat.cast_zero] at hlow
      linarith
    · have hnear := h.nearest _ h.float.sub_stepDown
      rw [hbelow hu, abs_sub_comm, abs_of_pos (by linarith)] at hnear
      rcases le_abs'.mp hnear with hnear | hnear <;> linarith
  · by_contra hhigh
    have hnear := h.nearest _ h.float.add_step
    rw [habove, abs_of_pos (by linarith)] at hnear
    rcases le_abs'.mp hnear with hnear | hnear <;> linarith
  · rintro (rfl | rfl)
    · have hu : 0 < u := by
        rcases Nat.eq_zero_or_pos u with rfl | hu
        · rw [Nat.cast_zero] at hx
          linarith
        · exact hu
      have hne : u - stepDown u ≠ u := by
        have hpos := stepDown_pos u
        omega
      refine h.even _ h.float.sub_stepDown hne ?_
      rw [hbelow hu, abs_sub_comm, abs_of_pos (by linarith), abs_of_pos (by linarith)]
      ring
    · have hne : u + step u ≠ u := by
        have hpos := step_pos u
        omega
      refine h.even _ h.float.add_step hne ?_
      rw [habove, abs_of_pos (by linarith), abs_sub_comm, abs_of_pos (by linarith)]
      ring

/-- No other float is nearer than half way. -/
theorem IsNear.abs_sub_le (hu : IsFloat u) (h : IsNear x u) (hv : IsFloat v) (hne : v ≠ u) :
    |x - u| ≤ |x - v| ∧
      (|x - u| = |x - v| → x = u - stepDown u / 2 ∨ x = u + step u / 2) := by
  obtain ⟨hlow, hhigh, -⟩ := h
  have hup : (0 : ℚ) < step u := by exact_mod_cast step_pos u
  have hdown : (0 : ℚ) < stepDown u := by exact_mod_cast stepDown_pos u
  rcases Nat.lt_or_gt_of_ne hne with hlt | hgt
  · have hgap : (v + stepDown u : ℚ) ≤ u := by exact_mod_cast add_stepDown_le hv hu hlt
    rw [abs_of_pos (a := x - v) (by linarith)]
    rcases le_total 0 (x - u) with hside | hside
    · rw [abs_of_nonneg hside]
      exact ⟨by linarith, fun heq => by linarith⟩
    · rw [abs_of_nonpos hside]
      exact ⟨by linarith, fun heq => .inl (by linarith)⟩
  · have hgap : (u + step u : ℚ) ≤ v := by exact_mod_cast add_step_le hu hv hgt
    rw [abs_of_neg (a := x - v) (by linarith)]
    rcases le_total 0 (x - u) with hside | hside
    · rw [abs_of_nonneg hside]
      exact ⟨by linarith, fun heq => .inr (by linarith)⟩
    · rw [abs_of_nonpos hside]
      exact ⟨by linarith, fun heq => by linarith⟩

theorem roundsTo_iff (hx : 0 ≤ x) : RoundsTo x u ↔ IsFloat u ∧ IsNear x u := by
  constructor
  · exact fun h => ⟨h.float, h.isNear hx⟩
  · rintro ⟨hfloat, hnear⟩
    refine ⟨hfloat, fun v hv => ?_, fun v hv hne heq => ?_⟩
    · by_cases hne : v = u
      · rw [hne]
      · exact (hnear.abs_sub_le hfloat hv hne).1
    · exact hnear.even ((hnear.abs_sub_le hfloat hv hne).2 heq)

/-- Of a float and the next one the last bits are not both zero. -/
theorem not_even_add_step (hu : IsFloat u) (hdown : stepDown (u + step u) = step u)
    (heven : Even (u / step u)) : ¬ Even ((u + step u) / step (u + step u)) := by
  obtain ⟨m, -, hm⟩ := hu.exists_mul_step
  have hpos := step_pos u
  have hnext : u + step u = (m + 1) * step u := by
    rw [Nat.succ_mul, ← hm]
  have hquotient : u / step u = m := Nat.div_eq_of_eq_mul_left hpos hm
  rw [hquotient] at heven
  unfold stepDown at hdown
  split at hdown
  · next hedge =>
    have htwo := step_eq_two_mul (u := u + step u) fun hzero => by
      have hone : step (u + step u) = 1 := congrArg (2 ^ ·) hzero
      omega
    have hodd : m + 1 = 2 ^ 53 := by
      refine Nat.eq_of_mul_eq_mul_right hpos ?_
      rw [← hnext]
      omega
    rw [show m = 2 ^ 53 - 1 by omega] at heven
    exact absurd heven (by decide)
  · rw [hdown, hnext, Nat.mul_div_cancel _ hpos]
    exact Nat.not_even_iff_odd.mpr heven.add_one

theorem RoundsTo.not_lt (hx : 0 ≤ x) (hu : RoundsTo x u) (hv : RoundsTo x v) : ¬ u < v := by
  intro hlt
  have hup := add_step_le hu.float hv.float hlt
  have hdown := add_stepDown_le hu.float hv.float hlt
  obtain ⟨-, hhigh, heven⟩ := hu.isNear hx
  obtain ⟨hlow, -, heven'⟩ := hv.isNear hx
  have hup' : (u + step u : ℚ) ≤ v := by exact_mod_cast hup
  have hdown' : (u + stepDown v : ℚ) ≤ v := by exact_mod_cast hdown
  -- Both are half way, so nothing is between them.
  have hnext : (u + step u : ℚ) = v := by linarith
  have hbefore : (stepDown v : ℚ) = step u := by linarith
  have hnext : u + step u = v := by exact_mod_cast hnext
  have hbefore : stepDown v = step u := by exact_mod_cast hbefore
  subst hnext
  exact not_even_add_step hu.float hbefore (heven (.inr (by linarith)))
    (heven' (.inl (by linarith)))

/-- A number rounds to one float at most. -/
theorem RoundsTo.unique (hx : 0 ≤ x) (hu : RoundsTo x u) (hv : RoundsTo x v) : u = v :=
  Nat.le_antisymm (Nat.not_lt.mp (hv.not_lt hx hu)) (Nat.not_lt.mp (hu.not_lt hx hv))

/-! ### Quotients -/

/-- A quotient rounded to 53 significant bits, however large it is. -/
def nearest (num den : ℕ) : ℕ :=
  divRound num (den * step (num / den)) * step (num / den)

theorem roundUnits_eq (num den : ℕ) : roundUnits num den =
    if nearest (num * unitsPerOne) den < unitsLimit then some (nearest (num * unitsPerOne) den)
    else none := rfl

section
variable (hden : 0 < den)
include hden

theorem lt_step_mul_quotient (num : ℕ) : (num / den : ℚ) < 2 ^ 53 * step (num / den) := by
  rw [div_lt_iff₀ (by exact_mod_cast hden)]
  exact_mod_cast (Nat.div_lt_iff_lt_mul hden).mp (lt_step_mul (num / den))

theorem step_mul_le_quotient (h : lastBit (num / den) ≠ 0) :
    (2 ^ 52 * step (num / den) : ℚ) ≤ num / den := by
  rw [le_div_iff₀ (by exact_mod_cast hden)]
  exact_mod_cast (Nat.le_div_iff_mul_le hden).mp (step_mul_le h)

theorem abs_sub_nearest (k : ℕ) : |(num / den : ℚ) - k * step (num / den)| =
    |(num / (den * step (num / den) : ℕ) : ℚ) - k| * step (num / den) := by
  have hpos : (0 : ℚ) < step (num / den) := by exact_mod_cast step_pos _
  rw [← abs_of_pos hpos, ← abs_mul, abs_of_pos hpos, Nat.cast_mul]
  congr 1
  field_simp

theorem abs_sub_nearest_le (num : ℕ) :
    |(num / den : ℚ) - nearest num den| ≤ (step (num / den) : ℚ) / 2 := by
  have hpos : 0 < step (num / den) := step_pos _
  have hhalf := abs_sub_divRound_le (Nat.mul_pos hden hpos) num
  rw [nearest, Nat.cast_mul, abs_sub_nearest hden]
  have hmul := mul_le_mul_of_nonneg_right hhalf (Nat.cast_nonneg (step (num / den)))
  linarith

/-- Half way between two multiples of the step the even one is taken. -/
theorem divRound_even_of_abs_eq
    (h : |(num / den : ℚ) - nearest num den| = (step (num / den) : ℚ) / 2) :
    Even (divRound num (den * step (num / den))) := by
  have hpos : 0 < step (num / den) := step_pos _
  rw [nearest, Nat.cast_mul, abs_sub_nearest hden] at h
  refine Nat.even_iff.mpr (divRound_even (Nat.mul_pos hden hpos) ?_)
  refine mul_right_cancel₀ (b := (step (num / den) : ℚ)) (by exact_mod_cast hpos.ne') ?_
  rw [h]
  ring

theorem divRound_le (num : ℕ) : divRound num (den * step (num / den)) ≤ 2 ^ 53 := by
  have hpos : (0 : ℚ) < step (num / den) := by exact_mod_cast step_pos _
  have hlt := lt_step_mul_quotient hden num
  obtain ⟨hlow, -⟩ := abs_le.mp (abs_sub_nearest_le hden num)
  rw [nearest, Nat.cast_mul] at hlow
  have hmul : (divRound num (den * step (num / den)) : ℚ) * step (num / den) <
      (2 ^ 53 + 1) * step (num / den) := by
    linarith
  have hcast : (divRound num (den * step (num / den)) : ℚ) < 2 ^ 53 + 1 :=
    lt_of_mul_lt_mul_right hmul hpos.le
  have hnat : divRound num (den * step (num / den)) < 2 ^ 53 + 1 := by exact_mod_cast hcast
  omega

theorem le_divRound (h : lastBit (num / den) ≠ 0) :
    2 ^ 52 ≤ divRound num (den * step (num / den)) := by
  have hpos : (0 : ℚ) < step (num / den) := by exact_mod_cast step_pos _
  have hle := step_mul_le_quotient hden h
  obtain ⟨-, hhigh⟩ := abs_le.mp (abs_sub_nearest_le hden num)
  rw [nearest, Nat.cast_mul] at hhigh
  have hmul : (2 ^ 52 - 1 : ℚ) * step (num / den) <
      divRound num (den * step (num / den)) * step (num / den) := by
    linarith
  have hcast : (2 ^ 52 - 1 : ℚ) < divRound num (den * step (num / den)) :=
    lt_of_mul_lt_mul_right hmul hpos.le
  have hnat : 2 ^ 52 < divRound num (den * step (num / den)) + 1 := by
    have hadd : (2 ^ 52 : ℚ) < divRound num (den * step (num / den)) + 1 := by linarith
    exact_mod_cast hadd
  omega

/-- A quotient below the next power of two -/
theorem isNear_nearest_of_lt (hlt : divRound num (den * step (num / den)) < 2 ^ 53) :
    IsNear (num / den) (nearest num den) := by
  have hpos : 0 < step (num / den) := step_pos _
  have hposQ : (0 : ℚ) < step (num / den) := by exact_mod_cast hpos
  obtain ⟨hlow, hhigh⟩ := abs_le.mp (abs_sub_nearest_le hden num)
  have hunits : nearest num den = divRound num (den * step (num / den)) * step (num / den) := rfl
  have hstep : step (nearest num den) = step (num / den) := by
    refine congrArg (2 ^ ·) (lastBit_eq (k := lastBit (num / den)) ?_ ?_)
    · exact Nat.mul_lt_mul_of_pos_right hlt hpos
    · exact (eq_or_ne _ 0).imp_right fun h => Nat.mul_le_mul_right _ (le_divRound hden h)
  by_cases hedge : nearest num den = 2 ^ 52 * step (nearest num den) ∧ 1 < step (nearest num den)
  · -- A power of two was not rounded up to.
    have hnonzero : lastBit (num / den) ≠ 0 := fun hzero => by
      have hone : step (num / den) = 1 := congrArg (2 ^ ·) hzero
      omega
    have hcast : (nearest num den : ℚ) = 2 ^ 52 * step (num / den) := by
      rw [← hstep]
      exact_mod_cast hedge.1
    have hge := hcast.trans_le (step_mul_le_quotient hden hnonzero)
    have hdown : (0 : ℚ) ≤ stepDown (nearest num den) := Nat.cast_nonneg _
    refine ⟨by linarith, by rw [hstep]; linarith, fun _ => ?_⟩
    rw [Nat.div_eq_of_eq_mul_left (by omega) hedge.1]
    decide
  · have hdown : stepDown (nearest num den) = step (num / den) := by
      rw [stepDown, if_neg hedge, hstep]
    refine ⟨by rw [hdown]; linarith, by rw [hstep]; linarith, fun htie => ?_⟩
    rw [hstep, Nat.div_eq_of_eq_mul_left hpos hunits]
    refine divRound_even_of_abs_eq hden ?_
    rw [hdown, hstep] at htie
    rcases htie with htie | htie
    · rw [htie, abs_sub_comm, abs_of_pos (by linarith)]
      ring
    · rw [htie, abs_of_pos (by linarith)]
      ring

/-- A quotient that is rounded to the next power of two -/
theorem isNear_nearest_of_eq (hcarry : divRound num (den * step (num / den)) = 2 ^ 53) :
    IsNear (num / den) (nearest num den) := by
  have hposQ : (0 : ℚ) < step (num / den) := by exact_mod_cast step_pos _
  obtain ⟨hlow, hhigh⟩ := abs_le.mp (abs_sub_nearest_le hden num)
  have hunits : nearest num den = 2 ^ 52 * 2 ^ (lastBit (num / den) + 1) := by
    rw [nearest, hcarry, step, Nat.pow_succ]
    ring
  have hbit : lastBit (nearest num den) = lastBit (num / den) + 1 := by
    rw [hunits]
    exact lastBit_eq (Nat.mul_lt_mul_of_pos_right (by decide) (Nat.two_pow_pos _)) (.inr le_rfl)
  have hstep : step (nearest num den) = 2 * step (num / den) := by
    rw [step, hbit, step, Nat.pow_succ, Nat.mul_comm]
  have hedge : nearest num den = 2 ^ 52 * step (nearest num den) := by
    rw [step, hbit]
    exact hunits
  have hdown : stepDown (nearest num den) = step (num / den) := by
    have hpos := step_pos (num / den)
    rw [stepDown, if_pos ⟨hedge, by omega⟩, hstep]
    omega
  have hstepQ : (step (nearest num den) : ℚ) = 2 * step (num / den) := by exact_mod_cast hstep
  refine ⟨by rw [hdown]; linarith, by rw [hstepQ]; linarith, fun _ => ?_⟩
  rw [Nat.div_eq_of_eq_mul_left (step_pos _) hedge]
  decide

/-- **A quotient is rounded to what it rounds to.** -/
theorem roundsTo_nearest (num : ℕ) : RoundsTo (num / den) (nearest num den) := by
  have hle := divRound_le hden num
  refine (roundsTo_iff (by positivity)).mpr ⟨isFloat_mul hle _, ?_⟩
  exact hle.lt_or_eq.elim (isNear_nearest_of_lt hden) (isNear_nearest_of_eq hden)

theorem roundsTo_quotient_iff : RoundsTo (num / den) u ↔ nearest num den = u := by
  have hnearest := roundsTo_nearest hden num
  constructor
  · exact hnearest.unique (by positivity)
  · exact fun h => h ▸ hnearest

/-- **What `roundUnits` gives**: what the quotient rounds to, if that is finite. -/
theorem roundUnits_eq_some_iff :
    roundUnits num den = some u ↔ u < unitsLimit ∧ RoundsTo (num * unitsPerOne / den) u := by
  rw [roundUnits_eq, ← Nat.cast_mul, roundsTo_quotient_iff hden]
  split
  · next hlt =>
    rw [Option.some.injEq]
    exact ⟨fun h => ⟨h ▸ hlt, h⟩, fun h => h.2⟩
  · next hge => exact iff_of_false nofun fun h => hge (h.2 ▸ h.1)

theorem roundUnits_eq_none_iff :
    roundUnits num den = none ↔ ∃ u, unitsLimit ≤ u ∧ RoundsTo (num * unitsPerOne / den) u := by
  rw [roundUnits_eq, ← Nat.cast_mul]
  simp only [roundsTo_quotient_iff hden, exists_eq_right']
  split
  · next hlt => exact iff_of_false nofun (Nat.not_le.mpr hlt)
  · next hge => exact iff_of_true rfl (Nat.not_lt.mp hge)

end

/-! ### Errors -/

theorem mul_stepDown_le (h : IsFloat u) (hbit : lastBit u ≠ 0) :
    (2 ^ 53 + 1) * stepDown u ≤ 2 * u := by
  have hfull := step_mul_le hbit
  have htwo := step_eq_two_mul hbit
  unfold stepDown
  split
  · omega
  · next hinside =>
    have hnext := h.succ_mul_step_le hbit hinside
    omega

/-- Rounding changes a number by `2 ^ -53` of it at most, or by half of the least magnitude. -/
theorem RoundsTo.abs_sub_le (hx : 0 ≤ x) (h : RoundsTo x u) :
    |x - u| ≤ x / 2 ^ 53 ∨ |x - u| ≤ 1 / 2 := by
  obtain ⟨hlow, hhigh, -⟩ := h.isNear hx
  by_cases hbit : lastBit u = 0
  · have hone : step u = 1 := congrArg (2 ^ ·) hbit
    have hdown : (stepDown u : ℚ) ≤ 1 := by exact_mod_cast hone ▸ stepDown_le u
    rw [hone, Nat.cast_one] at hhigh
    right
    rw [abs_le]
    constructor <;> linarith
  · have hup : (2 ^ 52 * step u : ℚ) ≤ u := by exact_mod_cast step_mul_le hbit
    have hdown : ((2 ^ 53 + 1) * stepDown u : ℚ) ≤ 2 * u := by
      exact_mod_cast mul_stepDown_le h.float hbit
    left
    rcases le_total 0 (x - u) with hside | hside
    · rw [abs_of_nonneg hside]
      linarith
    · rw [abs_of_nonpos hside]
      linarith

end Binary64
end HttpEcho
