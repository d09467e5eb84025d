import HttpEcho.Proofs.Number.Decimal

/-! How errors add up.

`Near` is a relative error. Products and quotients have those of their operands (`Near.mul`,
`Near.div`), and a result that is rounded differs by half of the least magnitude besides
(`Approximates`), which does not count where it is not small (`Approximates.near`). -/
namespace HttpEcho.Binary64
variable {r s t a b c x y z : ℚ} {u num den m e : ℕ} {o : Option ℕ}

/-! ### Relative errors -/

/-- A number is another one up to a relative error. -/
def Near (r x y : ℚ) : Prop := |x - y| ≤ r * y

theorem near_self (hr : 0 ≤ r) (hx : 0 ≤ x) : Near r x x := by
  unfold Near
  rw [sub_self, abs_zero]
  exact mul_nonneg hr hx

theorem Near.bounds (h : Near r x y) : (1 - r) * y ≤ x ∧ x ≤ (1 + r) * y := by
  obtain ⟨hlow, hhigh⟩ := abs_le.mp h
  constructor <;> linarith

theorem Near.eq_zero_iff (h : Near r x y) (hr : r < 1) (hy : 0 ≤ y) : x = 0 ↔ y = 0 := by
  obtain ⟨hlow, hhigh⟩ := h.bounds
  constructor
  · intro hx
    by_contra hne
    have hpos := mul_pos (sub_pos.mpr hr) (hy.lt_of_ne' hne)
    linarith
  · intro hzero
    rw [hzero, mul_zero] at hlow hhigh
    exact le_antisymm hhigh hlow

theorem Near.mul_right (h : Near r x y) (hc : 0 ≤ c) : Near r (x * c) (y * c) := by
  unfold Near at *
  rw [← sub_mul, abs_mul, abs_of_nonneg hc, ← mul_assoc]
  exact mul_le_mul_of_nonneg_right h hc

theorem Near.mul (ha : Near r a x) (hb : Near s b y) (hx : 0 ≤ x) (hy : 0 ≤ y) (hr : 0 ≤ r)
    (ht : r + s + r * s ≤ t) : Near t (a * b) (x * y) := by
  unfold Near at *
  have hbound : |b| ≤ (1 + s) * y := by
    have htriangle := abs_add_le (b - y) y
    rw [sub_add_cancel, abs_of_nonneg hy] at htriangle
    linarith
  have hsplit : a * b - x * y = (a - x) * b + x * (b - y) := by ring
  calc |a * b - x * y| ≤ |a - x| * |b| + x * |b - y| := by
        rw [hsplit]
        refine (abs_add_le _ _).trans ?_
        rw [abs_mul, abs_mul, abs_of_nonneg hx]
    _ ≤ r * x * ((1 + s) * y) + x * (s * y) := by
        refine add_le_add (mul_le_mul ha hbound (abs_nonneg b) (mul_nonneg hr hx)) ?_
        exact mul_le_mul_of_nonneg_left hb hx
    _ = (r + s + r * s) * (x * y) := by ring
    _ ≤ t * (x * y) := mul_le_mul_of_nonneg_right ht (mul_nonneg hx hy)

theorem Near.div (ha : Near r a x) (hb : Near s b y) (hx : 0 ≤ x) (hy : 0 < y) (hs : s < 1)
    (ht0 : 0 ≤ t) (ht : r + s ≤ t * (1 - s)) : Near t (a / b) (x / y) := by
  have hlow := hb.bounds.1
  unfold Near at *
  have hb0 : 0 < b := (mul_pos (by linarith) hy).trans_le hlow
  have hsplit : a / b - x / y = ((a - x) * y - x * (b - y)) / (b * y) := by
    field_simp
    ring
  rw [hsplit, abs_div, abs_of_pos (mul_pos hb0 hy), div_le_iff₀ (mul_pos hb0 hy)]
  calc |(a - x) * y - x * (b - y)| ≤ |a - x| * y + x * |b - y| := by
        refine (abs_sub _ _).trans ?_
        rw [abs_mul, abs_mul, abs_of_pos hy, abs_of_nonneg hx]
    _ ≤ r * x * y + x * (s * y) :=
        add_le_add (mul_le_mul_of_nonneg_right ha hy.le) (mul_le_mul_of_nonneg_left hb hx)
    _ = (r + s) * (x * y) := by ring
    _ ≤ t * (1 - s) * (x * y) := mul_le_mul_of_nonneg_right ht (mul_nonneg hx hy.le)
    _ = t * x * ((1 - s) * y) := by ring
    _ ≤ t * x * b := mul_le_mul_of_nonneg_left hlow (mul_nonneg ht0 hx)
    _ = t * (x / y) * (b * y) := by field_simp

/-! ### Rounded results -/

/-- What a number is computed as: a float that is off by a relative error and half of the least
magnitude at most, or nothing when the number is too large up to the error. -/
inductive Approximates (r x : ℚ) : Option ℕ → Prop where
  | finite {u : ℕ} : IsFloat u → u < unitsLimit → |u - x| ≤ r * x + 1 / 2 →
      Approximates r x (some u)
  | tooLarge : unitsLimit ≤ (1 + r) * x → Approximates r x none

/-- The operands' errors and the result's make an error. -/
theorem Approximates.of_near (h : Approximates r y o) (hnear : Near s y x) (hr : 0 ≤ r)
    (hx : 0 ≤ x) (ht : r + s + r * s ≤ t) : Approximates t x o := by
  have hy := mul_le_mul_of_nonneg_left hnear.bounds.2 hr
  have htotal := mul_le_mul_of_nonneg_right ht hx
  cases h with
  | @finite u hfloat hlt hu =>
    refine .finite hfloat hlt ?_
    calc |u - x| ≤ |u - y| + |y - x| := abs_sub_le _ _ _
      _ ≤ (r * y + 1 / 2) + s * x := add_le_add hu hnear
      _ ≤ t * x + 1 / 2 := by linarith
  | tooLarge hle =>
    refine .tooLarge ?_
    have hbound := hnear.bounds.2
    linarith

/-- Where half of the least magnitude is a small part of it -/
theorem Approximates.near (h : Approximates r x (some u)) (hx : 1 / 2 ≤ s * x) :
    Near (r + s) u x := by
  cases h with
  | finite _ _ hu =>
    unfold Near
    linarith

theorem Approximates.mono (h : Approximates r x o) (hr : 0 ≤ r) (hx : 0 ≤ x) (ht : r ≤ t) :
    Approximates t x o :=
  h.of_near (near_self le_rfl hx) hr hx (by linarith)

theorem Approximates.of_le_half (hr : 0 ≤ r) (hx : 0 ≤ x) (hle : x ≤ 1 / 2) :
    Approximates r x (some 0) := by
  refine .finite isFloat_zero (by decide +kernel) ?_
  rw [Nat.cast_zero, zero_sub, abs_neg, abs_of_nonneg hx]
  linarith [mul_nonneg hr hx]

theorem Approximates.of_limit_le (hr : 0 ≤ r) (hle : unitsLimit ≤ x) : Approximates r x none := by
  refine .tooLarge ?_
  have hnonneg : 0 ≤ x := (Nat.cast_nonneg _).trans hle
  linarith [mul_nonneg hr hnonneg]

/-! ### Operations -/

theorem quotient_nonneg (num den : ℕ) : (0 : ℚ) ≤ num * unitsPerOne / den :=
  div_nonneg (mul_nonneg (Nat.cast_nonneg _) cast_unitsPerOne_pos.le) (Nat.cast_nonneg _)

theorem roundUnits_of_lt_half (hden : 0 < den) (h : (num * unitsPerOne / den : ℚ) < 1 / 2) :
    roundUnits num den = some 0 :=
  (roundUnits_eq_some_iff hden).mpr
    ⟨by decide +kernel, roundsTo_zero_of_lt (quotient_nonneg num den) h⟩

theorem roundUnits_zero (hden : 0 < den) : roundUnits 0 den = some 0 := by
  refine roundUnits_of_lt_half hden ?_
  rw [Nat.cast_zero, zero_mul, zero_div]
  exact one_half_pos

theorem approximates_roundUnits (hden : 0 < den) (num : ℕ) :
    Approximates (1 / 2 ^ 53) (num * unitsPerOne / den) (roundUnits num den) := by
  have hnonneg := quotient_nonneg num den
  cases hround : roundUnits num den with
  | some u =>
    obtain ⟨hlt, hu⟩ := (roundUnits_eq_some_iff hden).mp hround
    refine .finite hu.float hlt ?_
    rw [abs_sub_comm]
    rcases hu.abs_sub_le hnonneg with h | h <;> linarith
  | none =>
    obtain ⟨u, hge, hu⟩ := (roundUnits_eq_none_iff hden).mp hround
    refine .tooLarge ?_
    have hge : (unitsLimit : ℚ) ≤ u := Nat.cast_le.mpr hge
    have hlarge : ((2 ^ 54 : ℕ) : ℚ) ≤ unitsLimit := Nat.cast_le.mpr (by decide +kernel)
    rw [Nat.cast_pow, Nat.cast_ofNat] at hlarge
    rcases hu.abs_sub_le hnonneg with h | h <;> linarith [(abs_le.mp h).1]

/-- Whole numbers are not small, so their error is relative. -/
theorem near_of_roundUnits (h : roundUnits m 1 = some u) :
    Near (1 / 2 ^ 52) (u / unitsPerOne) m := by
  have hone := cast_unitsPerOne_pos
  have hround := approximates_roundUnits one_pos m
  rw [h, Nat.cast_one, div_one] at hround
  rcases Nat.eq_zero_or_pos m with rfl | hpos
  · rw [roundUnits_zero one_pos, Option.some.injEq] at h
    rw [← h, Nat.cast_zero, zero_div]
    exact near_self (by norm_num) le_rfl
  · have hunits : (2 ^ 53 : ℕ) ≤ m * unitsPerOne :=
      (show 2 ^ 53 ≤ unitsPerOne by decide +kernel).trans (Nat.le_mul_of_pos_left _ hpos)
    have hunits : ((2 ^ 53 : ℕ) : ℚ) ≤ m * unitsPerOne := by exact_mod_cast hunits
    rw [Nat.cast_pow, Nat.cast_ofNat] at hunits
    have hnear := (hround.near (s := 1 / 2 ^ 53) (by linarith)).mul_right (inv_nonneg.mpr hone.le)
    rw [mul_inv_cancel_right₀ hone.ne', ← div_eq_mul_inv] at hnear
    have hsum : (1 / 2 ^ 53 + 1 / 2 ^ 53 : ℚ) = 1 / 2 ^ 52 := by norm_num
    rwa [hsum] at hnear

/-- What is smaller by a third is not too large. -/
theorem exists_roundUnits (hden : 0 < den)
    (h : 3 * (num * unitsPerOne) ≤ 2 * (unitsLimit * den)) :
    ∃ u, roundUnits num den = some u := by
  refine Option.ne_none_iff_exists'.mp fun hnone => ?_
  have hround := approximates_roundUnits hden num
  rw [hnone] at hround
  cases hround with
  | tooLarge hle =>
    have hpos : (0 : ℚ) < unitsLimit := Nat.cast_pos.mpr (by decide +kernel)
    have h : (3 * (num * unitsPerOne) : ℚ) ≤ 2 * (unitsLimit * den) := by exact_mod_cast h
    have hquotient := div_mul_cancel₀ (num * unitsPerOne : ℚ) (Nat.cast_pos.mpr hden).ne'
    have hdenQ : (0 : ℚ) < den := Nat.cast_pos.mpr hden
    generalize (num * unitsPerOne / den : ℚ) = q at *
    have hq : 3 * q ≤ 2 * unitsLimit := by
      refine le_of_mul_le_mul_right ?_ hdenQ
      linarith
    linarith

theorem exists_powTen (he : e ≤ 308) :
    ∃ p, powTen e = some p ∧ Near (1 / 2 ^ 52) (p / unitsPerOne) (10 ^ e) := by
  have hpow (k : ℕ) (hk : e ≤ k) : 3 * (Nat.pow 10 e * unitsPerOne) ≤ 3 * (10 ^ k * unitsPerOne) :=
    Nat.mul_le_mul_left 3 (Nat.mul_le_mul_right _ (Nat.pow_le_pow_right (by decide) hk))
  have hlimit : 3 * (10 ^ 308 * unitsPerOne) ≤ 2 * (unitsLimit * 1) := by decide +kernel
  obtain ⟨p, hp⟩ := exists_roundUnits Nat.one_pos ((hpow 308 he).trans hlimit)
  have hnear := near_of_roundUnits hp
  have hcast : ((Nat.pow 10 e : ℕ) : ℚ) = 10 ^ e := Nat.cast_pow 10 e
  rw [hcast] at hnear
  exact ⟨p, hp, hnear⟩

section
variable {p : ℕ} (hu : Near r u x) (hp : Near (1 / 2 ^ 52) (p / unitsPerOne) y) (hr0 : 0 ≤ r)
  (hr : r ≤ 1 / 8) (hx : 0 ≤ x) (hy : 0 < y)
include hu hp hr0 hr hx hy

/-- A factor that was rounded itself, and one rounding more -/
theorem approximates_mulUnits : Approximates (r + 1 / 2 ^ 51) (x * y) (mulUnits u p) := by
  have hone := cast_unitsPerOne_pos
  have hnear := hu.mul hp hx hy.le hr0 (t := r + 5 / 2 ^ 54) (by linarith)
  have hround := approximates_roundUnits (Nat.mul_pos unitsPerOne_pos unitsPerOne_pos) (u * p)
  have hproduct : ((u * p : ℕ) * unitsPerOne / (unitsPerOne * unitsPerOne : ℕ) : ℚ) =
      u * (p / unitsPerOne) := by
    rw [Nat.cast_mul, Nat.cast_mul, mul_div_mul_right _ _ hone.ne', mul_div_assoc]
  rw [hproduct] at hround
  exact hround.of_near hnear (by norm_num) (mul_nonneg hx hy.le) (by linarith)

omit hu hr0 hr hx in
theorem pos_of_near : 0 < p := by
  refine Nat.pos_of_ne_zero fun hzero => hy.ne' ((hp.eq_zero_iff (by norm_num) hy.le).mp ?_)
  rw [hzero, Nat.cast_zero, zero_div]

theorem approximates_divUnits : Approximates (r + 1 / 2 ^ 51) (x / y) (divUnits u p) := by
  have hone := cast_unitsPerOne_pos
  have hnear := hu.div hp hx hy (t := r + 5 / 2 ^ 54) (by norm_num) (by linarith) (by linarith)
  have hround := approximates_roundUnits (pos_of_near hp hy) u
  have hquotient : (u * unitsPerOne / p : ℚ) = u / (p / unitsPerOne) := by
    rw [div_div_eq_mul_div]
  rw [hquotient] at hround
  exact hround.of_near hnear (by norm_num) (div_nonneg hx hy.le) (by linarith)

end

end HttpEcho.Binary64
