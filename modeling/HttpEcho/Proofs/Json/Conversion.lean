import HttpEcho.Proofs.Json.Magnitude
import HttpEcho.Proofs.Number.Error

/-! How far the conversion of a numeral is from the number that it spells.

Digits that are not gathered stand behind so many others that they hardly count
(`Numeral.gathered_near`), and a power of ten takes two divisions at most before nothing is left
(`approximates_divideOut`), so there are few roundings. `Grammar.IsNumber.approximates` adds them
up: a number of a text becomes a float that is off by a part of `2 ^ -49` and half of the least
magnitude at most, and it is refused only where it is too large up to that. -/
namespace HttpEcho.Json

open Binary64

/-! ### Digits -/

/-- Numbers with the same leading digits -/
theorem near_of_same_digits {m : ℕ} {x y z : ℚ} (hm : 2 ^ 60 ≤ m) (hz : 0 ≤ z)
    (hx : m * z ≤ x ∧ x < (m + 1) * z) (hy : m * z ≤ y ∧ y < (m + 1) * z) :
    Near (1 / 2 ^ 60) x y := by
  have hm : (2 ^ 60 : ℚ) ≤ m := by exact_mod_cast hm
  have hle : z ≤ 1 / 2 ^ 60 * y := by
    have hmul := mul_le_mul_of_nonneg_right hm hz
    linarith
  unfold Near
  rw [abs_le]
  constructor <;> linarith

/-- Leading digits fix a number up to the weight of the last of them. -/
theorem digitsValue_append_bounds (v : List Char) {w : List Char} (h : ∀ c ∈ w, c.isDigit) :
    digitsValue v * 10 ^ w.length ≤ digitsValue (v ++ w) ∧
      digitsValue (v ++ w) < (digitsValue v + 1) * 10 ^ w.length := by
  rw [digitsValue_append, Nat.succ_mul]
  exact ⟨Nat.le_add_right _ _, Nat.add_lt_add_left (digitsValue_lt h) _⟩

/-- The same for a number with an exponent -/
theorem zpow_bounds (v : List Char) {w : List Char} (h : ∀ c ∈ w, c.isDigit) {e f : ℤ}
    (hf : w.length + e = f) : digitsValue v * (10 : ℚ) ^ f ≤ digitsValue (v ++ w) * 10 ^ e ∧
      digitsValue (v ++ w) * (10 : ℚ) ^ e < (digitsValue v + 1) * 10 ^ f := by
  obtain ⟨hge, hlt⟩ := digitsValue_append_bounds v h
  have hpos : (0 : ℚ) < 10 ^ e := zpow_pos (by norm_num) e
  have hpow : (10 : ℚ) ^ f = 10 ^ w.length * 10 ^ e := by
    rw [← hf, zpow_add₀ (by norm_num), zpow_natCast]
  have hge : (digitsValue v * 10 ^ w.length : ℚ) ≤ digitsValue (v ++ w) := by exact_mod_cast hge
  have hlt : (digitsValue (v ++ w) : ℚ) < (digitsValue v + 1) * 10 ^ w.length := by
    exact_mod_cast hlt
  rw [hpow, ← mul_assoc, ← mul_assoc]
  exact ⟨mul_le_mul_of_nonneg_right hge hpos.le, mul_lt_mul_of_pos_right hlt hpos⟩

/-- What is absorbed is the number of the digits that are not left. Digits are left only when there
are many before them. -/
theorem absorb_spec {v digits rest : List Char} {n : ℕ} (hdigits : ∀ c ∈ digits, c.isDigit)
    (hv : digitsValue v ≤ maxNatural) (h : absorb (digitsValue v) digits = (n, rest)) :
    ∃ taken, digits = taken ++ rest ∧ n = digitsValue (v ++ taken) ∧ n ≤ maxNatural ∧
      (rest ≠ [] → 2 ^ 60 ≤ n) := by
  induction digits generalizing v with
  | nil =>
    cases h
    exact ⟨[], rfl, by rw [List.append_nil], hv, fun hne => absurd rfl hne⟩
  | cons c digits ih =>
    obtain ⟨hc, hdigits⟩ := List.forall_mem_cons.mp hdigits
    have hnext : 10 * digitsValue v + digitValue c = digitsValue (v ++ [c]) := by
      rw [digitsValue_append, List.length_singleton, Nat.pow_one, Nat.mul_comm]
      exact congrArg _ (Nat.zero_add _).symm
    unfold absorb at h
    dsimp only at h
    split at h
    · next hlarge =>
      cases h
      refine ⟨[], rfl, by rw [List.append_nil], hv, fun _ => ?_⟩
      have hdigit : digitValue c < 10 := (Unsigned.digitChar_of_isDigit hc).2
      unfold maxNatural at hlarge
      omega
    · next hfits =>
      rw [hnext] at h hfits
      obtain ⟨taken, rfl, hn, hbound, hrest⟩ := ih hdigits (Nat.not_lt.mp hfits) h
      exact ⟨c :: taken, rfl, by rw [hn, List.append_assoc]; rfl, hbound, hrest⟩

/-! ### Powers of ten -/

section
variable {units m n e p : ℕ} {r x : ℚ}

theorem divideOut_zero (hp : powTen e = some p) : divideOut 0 units e = divUnits units p := by
  rw [divideOut, hp, Option.bind_eq_bind, Option.bind_some]

theorem divideOut_succ (hu : units ≠ 0) : divideOut (n + 1) units e =
    (powTen 308).bind fun p => (divUnits units p).bind (divideOut n · e) :=
  if_neg hu

theorem divideOut_of_zero (he : e ≤ 308) : divideOut n 0 e = some 0 := by
  cases n with
  | zero =>
    obtain ⟨p, hp, hnear⟩ := exists_powTen he
    rw [divideOut_zero hp, divUnits]
    exact roundUnits_zero (pos_of_near hnear (by positivity))
  | succ n => rfl

theorem approximates_divideOut_zero (hu : Near r units x) (he : e ≤ 308) (hr0 : 0 ≤ r)
    (hr : r ≤ 1 / 8) (hx : 0 ≤ x) :
    Approximates (r + 1 / 2 ^ 51) (x / 10 ^ e) (divideOut 0 units e) := by
  obtain ⟨p, hp, hnear⟩ := exists_powTen he
  rw [divideOut_zero hp]
  exact approximates_divUnits hu hnear hr0 hr hx (by positivity)

/-- One division leaves what is not small yet, and not too large. -/
theorem div_bounds (hpos : 0 < m) (hm : m ≤ maxNatural) :
    (2 ^ 50 : ℚ) ≤ m * unitsPerOne / 10 ^ 308 ∧
      2 * (m * unitsPerOne / 10 ^ 308 : ℚ) ≤ unitsLimit := by
  have hone := cast_unitsPerOne_pos
  have hten : (0 : ℚ) < 10 ^ 308 := by positivity
  have hposQ : (1 : ℚ) ≤ m := by exact_mod_cast hpos
  have hmQ : (m : ℚ) ≤ maxNatural := Nat.cast_le.mpr hm
  have hsmall : ((2 ^ 50 * 10 ^ 308 : ℕ) : ℚ) ≤ unitsPerOne := Nat.cast_le.mpr (by decide +kernel)
  have hlarge : ((2 * maxNatural * unitsPerOne : ℕ) : ℚ) ≤ (unitsLimit * 10 ^ 308 : ℕ) :=
    Nat.cast_le.mpr (by decide +kernel)
  rw [Nat.cast_mul, Nat.cast_pow, Nat.cast_pow, Nat.cast_ofNat, Nat.cast_ofNat] at hsmall
  rw [Nat.cast_mul, Nat.cast_mul, Nat.cast_mul, Nat.cast_pow, Nat.cast_ofNat, Nat.cast_ofNat]
    at hlarge
  generalize (10 ^ 308 : ℚ) = ten at *
  constructor
  · rw [le_div_iff₀ hten]
    linarith [mul_le_mul_of_nonneg_right hposQ hone.le]
  · rw [← mul_div_assoc, div_le_iff₀ hten]
    linarith [mul_le_mul_of_nonneg_right hmQ hone.le]

/-- Two divisions leave nothing. -/
theorem div_div_le (hm : m ≤ maxNatural) :
    (m * unitsPerOne / 10 ^ 308 / 10 ^ 308 : ℚ) ≤ 1 / 8 := by
  have hbound : ((8 * (maxNatural * unitsPerOne) : ℕ) : ℚ) ≤ (10 ^ 308 * 10 ^ 308 : ℕ) :=
    Nat.cast_le.mpr (by decide +kernel)
  have hmul : (m * unitsPerOne : ℚ) ≤ maxNatural * unitsPerOne :=
    mul_le_mul_of_nonneg_right (Nat.cast_le.mpr hm) cast_unitsPerOne_pos.le
  have hten : (0 : ℚ) < 10 ^ 308 := by positivity
  rw [Nat.cast_mul, Nat.cast_mul, Nat.cast_mul, Nat.cast_pow, Nat.cast_ofNat, Nat.cast_ofNat]
    at hbound
  generalize (10 ^ 308 : ℚ) = ten at *
  rw [div_div, div_le_iff₀ (mul_pos hten hten)]
  linarith

theorem divUnits_of_near {u : ℕ} (hm : m ≤ maxNatural)
    (hp : Near (1 / 2 ^ 52) (p / unitsPerOne) (10 ^ 308))
    (hu : Near (5 / 2 ^ 52) u (m * unitsPerOne / 10 ^ 308)) : divUnits u p = some 0 := by
  have hten : (0 : ℚ) < 10 ^ 308 := by positivity
  have hx : (0 : ℚ) ≤ m * unitsPerOne / 10 ^ 308 :=
    div_nonneg (mul_nonneg (Nat.cast_nonneg m) cast_unitsPerOne_pos.le) hten.le
  have hnear := hu.div hp hx hten (t := 1) (by norm_num) (by norm_num) (by norm_num)
  refine roundUnits_of_lt_half (pos_of_near hp hten) ?_
  rw [← div_div_eq_mul_div]
  have hle := div_div_le hm
  have hbound := hnear.bounds.2
  generalize (m * unitsPerOne / 10 ^ 308 / 10 ^ 308 : ℚ) = small at *
  linarith

theorem limit_le_scaled {k : ℕ} (hpos : 0 < m) (hk : 308 < k) :
    (unitsLimit : ℚ) ≤ m * unitsPerOne * 10 ^ k := by
  have hlimit : unitsLimit ≤ 1 * unitsPerOne * 10 ^ 309 := by decide +kernel
  have hpow (j : ℕ) (hj : j ≤ k) : 1 * unitsPerOne * 10 ^ j ≤ m * unitsPerOne * 10 ^ k :=
    Nat.mul_le_mul (Nat.mul_le_mul_right _ hpos) (Nat.pow_le_pow_right (by decide) hj)
  exact_mod_cast hlimit.trans (hpow 309 hk)

variable (hm : m ≤ maxNatural) (hu : Near (1 / 2 ^ 52) units (m * unitsPerOne))
include hm hu

theorem exists_divUnits (hpos : 0 < m) (hp : Near (1 / 2 ^ 52) (p / unitsPerOne) (10 ^ 308)) :
    ∃ u, divUnits units p = some u ∧ Near (5 / 2 ^ 52) u (m * unitsPerOne / 10 ^ 308) := by
  have hquotient := approximates_divUnits hu hp (by norm_num) (by norm_num)
    (mul_nonneg (Nat.cast_nonneg m) cast_unitsPerOne_pos.le) (by positivity)
  obtain ⟨hge, hle⟩ := div_bounds hpos hm
  generalize (m * unitsPerOne / 10 ^ 308 : ℚ) = x at *
  cases hu : divUnits units p with
  | some u =>
    rw [hu] at hquotient
    have hnear := hquotient.near (s := 1 / 2 ^ 51) (by linarith)
    have hsum : (1 / 2 ^ 52 + 1 / 2 ^ 51 + 1 / 2 ^ 51 : ℚ) = 5 / 2 ^ 52 := by norm_num
    rw [hsum] at hnear
    exact ⟨u, rfl, hnear⟩
  | none =>
    rw [hu] at hquotient
    cases hquotient with
    | tooLarge hlimit => linarith

/-- Half of the least magnitude counts once. It is little of what one division leaves, and two leave
nothing else. -/
theorem approximates_divideOut (he : e ≤ 308) (n : ℕ) :
    Approximates (7 / 2 ^ 52) (m * unitsPerOne / 10 ^ (308 * n + e)) (divideOut n units e) := by
  have hnonneg : (0 : ℚ) ≤ m * unitsPerOne :=
    mul_nonneg (Nat.cast_nonneg m) cast_unitsPerOne_pos.le
  rcases Nat.eq_zero_or_pos m with rfl | hpos
  · rw [Nat.cast_zero, zero_mul] at hu ⊢
    have hzero : units = 0 := Nat.cast_eq_zero.mp ((hu.eq_zero_iff (by norm_num) le_rfl).mpr rfl)
    rw [hzero, divideOut_of_zero he, zero_div]
    exact .of_le_half (by norm_num) le_rfl (by norm_num)
  have hne : units ≠ 0 := fun hzero => by
    have hprod := (hu.eq_zero_iff (by norm_num) hnonneg).mp (Nat.cast_eq_zero.mpr hzero)
    exact absurd hprod (mul_pos (Nat.cast_pos.mpr hpos) cast_unitsPerOne_pos).ne'
  have hquotient (k : ℕ) : (0 : ℚ) ≤ m * unitsPerOne / 10 ^ k :=
    div_nonneg hnonneg (by positivity)
  obtain ⟨p, hp, hten⟩ := exists_powTen (le_refl 308)
  cases n with
  | zero =>
    rw [Nat.mul_zero, Nat.zero_add]
    exact (approximates_divideOut_zero hu he (by norm_num) (by norm_num) hnonneg).mono
      (by norm_num) (hquotient e) (by norm_num)
  | succ n =>
    obtain ⟨u, hdiv, hnear⟩ := exists_divUnits hm hu hpos hten
    rw [divideOut_succ hne, hp, Option.bind_some, hdiv, Option.bind_some]
    cases n with
    | zero =>
      have hone := approximates_divideOut_zero hnear he (by norm_num) (by norm_num)
        (hquotient 308)
      rw [div_div, ← pow_add] at hone
      rw [Nat.zero_add, Nat.mul_one]
      exact hone.mono (by norm_num) (hquotient _) (by norm_num)
    | succ n =>
      -- The second quotient rounds to zero, however often it is divided after that.
      have hzero : divideOut (n + 1) u e = some 0 := by
        rcases Nat.eq_zero_or_pos u with rfl | hu
        · exact divideOut_of_zero he
        · rw [divideOut_succ hu.ne', hp, Option.bind_some, divUnits_of_near hm hten hnear,
            Option.bind_some]
          exact divideOut_of_zero he
      rw [hzero]
      have hexponent : 308 * (n + 1 + 1) + e = 308 + 308 + (308 * n + e) := by omega
      have hrest : (1 : ℚ) ≤ 10 ^ (308 * n + e) := one_le_pow₀ (by norm_num)
      have hsmall := div_div_le hm
      have hnonneg := div_nonneg (hquotient 308) (b := (10 : ℚ) ^ 308) (by positivity)
      refine .of_le_half (by norm_num) (hquotient _) ?_
      rw [hexponent, pow_add, pow_add, ← div_div, ← div_div]
      exact (div_le_self hnonneg hrest).trans (hsmall.trans (by norm_num))

/-- A power of ten adds little to the error that is there. -/
theorem approximates_scale? (e : ℤ) :
    Approximates (7 / 2 ^ 52) (m * 10 ^ e * unitsPerOne) (scale? units e) := by
  have hone := cast_unitsPerOne_pos
  have hnonneg : (0 : ℚ) ≤ m * unitsPerOne := mul_nonneg (Nat.cast_nonneg m) hone.le
  rw [mul_right_comm]
  unfold scale?
  split
  · next he =>
    obtain ⟨k, rfl⟩ := Int.eq_ofNat_of_zero_le he
    rw [zpow_natCast, Int.toNat_natCast]
    split
    · next hk =>
      obtain ⟨p, hp, hten⟩ := exists_powTen (Int.ofNat_le.mp hk)
      rw [hp, Option.bind_eq_bind, Option.bind_some]
      have hproduct := approximates_mulUnits hu hten (by norm_num) (by norm_num) hnonneg
        (by positivity)
      exact hproduct.mono (by norm_num) (mul_nonneg hnonneg (by positivity)) (by norm_num)
    next hk =>
    have hzero := hu.eq_zero_iff (by norm_num) hnonneg
    rw [Nat.cast_eq_zero] at hzero
    split
    · next hunits =>
      rw [hzero.mp hunits, zero_mul]
      exact .of_le_half (by norm_num) le_rfl (by norm_num)
    · next hunits =>
      have hpos : 0 < m := by
        refine Nat.pos_of_ne_zero fun h => hunits (hzero.mpr ?_)
        rw [h, Nat.cast_zero, zero_mul]
      exact .of_limit_le (by norm_num) (limit_le_scaled hpos (by omega))
  · next he =>
    obtain ⟨k, rfl⟩ : ∃ k : ℕ, e = -(k + 1 : ℕ) := ⟨(-e).toNat - 1, by omega⟩
    have hrest : k + 1 - 308 * (k / 308) = k % 308 + 1 := by omega
    have hsum : 308 * (k / 308) + (k % 308 + 1) = k + 1 := by omega
    have hdivide := approximates_divideOut hm hu (e := k % 308 + 1) (by omega) (k / 308)
    dsimp only
    rw [neg_neg, Int.toNat_natCast, Nat.add_sub_cancel, hrest, zpow_neg, zpow_natCast,
      ← div_eq_mul_inv]
    rwa [hsum] at hdivide

end

/-! ### Numerals -/

namespace Numeral
variable {n : Numeral} {u : ℕ}

/-- The digits that are gathered, as a number, and the exponent of the last of them -/
def gathered (n : Numeral) : ℕ × ℤ :=
  let (whole, dropped) := absorb 0 n.whole
  let (digits, unread) := absorb whole n.decimals
  (digits, dropped.length - (n.decimals.length - unread.length : ℕ))

/-- The conversion in two steps: what is gathered, and its power of ten. -/
theorem realUnits?_eq (n : Numeral) : n.realUnits? = (roundUnits n.gathered.1 1).bind fun units =>
    match n.exponent with
    | none => scale? units n.gathered.2
    | some e =>
      if maxExponent < digitsValue e.digits then
        if n.gathered.1 = 0 ∨ e.negative then some 0 else none
      else scale? units
        (if e.negative then n.gathered.2 - digitsValue e.digits
          else n.gathered.2 + digitsValue e.digits) := rfl

/-- What is gathered is near the number of all digits. -/
theorem gathered_near (hdigits : ∀ c ∈ n.digits, c.isDigit) : n.gathered.1 ≤ maxNatural ∧
    Near (1 / 2 ^ 60) (n.gathered.1 * 10 ^ n.gathered.2)
      (digitsValue n.digits * 10 ^ (-n.decimals.length : ℤ)) := by
  unfold gathered digits at *
  obtain ⟨hwhole, hdecimals⟩ := List.forall_mem_append.mp hdigits
  obtain ⟨⟨m, dropped⟩, hfirst⟩ : ∃ p, absorb 0 n.whole = p := ⟨_, rfl⟩
  obtain ⟨v, hv, hm, hmax, hdropped⟩ := absorb_spec (v := []) hwhole (by decide) hfirst
  rw [List.nil_append] at hm
  subst hm
  obtain ⟨⟨d, unread⟩, hsecond⟩ : ∃ p, absorb (digitsValue v) n.decimals = p := ⟨_, rfl⟩
  obtain ⟨w, hw, hd, hdmax, hunread⟩ := absorb_spec hdecimals hmax hsecond
  rw [hfirst]
  dsimp only
  rw [hsecond]
  dsimp only
  refine ⟨hdmax, ?_⟩
  have hsplit : n.decimals.length - unread.length = w.length := by
    rw [hw, List.length_append]
    omega
  have hlength : (n.decimals.length : ℤ) = w.length + unread.length := by
    rw [hw, List.length_append]
    push_cast
    rfl
  have hunits (e : ℤ) : (0 : ℚ) < 10 ^ e := zpow_pos (by norm_num) e
  rw [hsplit, hd]
  by_cases hnone : dropped = []
  · -- All of the whole part was taken, so what is left is behind what was taken.
    rw [hnone, List.append_nil] at hv
    rw [hnone, hv, List.length_nil, Nat.cast_zero, zero_sub]
    by_cases hall : unread = []
    · rw [hall, List.append_nil] at hw
      rw [hw]
      exact near_self (by norm_num) (mul_nonneg (Nat.cast_nonneg _) (hunits _).le)
    · have hrest := (List.forall_mem_append.mp (hw ▸ hdecimals)).2
      have hbounds := zpow_bounds (v ++ w) hrest
        (e := -n.decimals.length) (f := -w.length) (by omega)
      rw [List.append_assoc, ← hw] at hbounds
      refine near_of_same_digits (hd ▸ hunread hall) (hunits (-w.length)).le ⟨le_rfl, ?_⟩ hbounds
      exact mul_lt_mul_of_pos_right (lt_add_one _) (hunits _)
  · -- Digits of the whole part were dropped, so what was taken first is all that counts.
    have htaken := (List.forall_mem_append.mp (hw ▸ hdecimals)).1
    have hrest : ∀ c ∈ dropped ++ n.decimals, c.isDigit :=
      List.forall_mem_append.mpr ⟨(List.forall_mem_append.mp (hv ▸ hwhole)).2, hdecimals⟩
    rw [hv, List.append_assoc]
    refine near_of_same_digits (hdropped hnone) (hunits dropped.length).le ?_ ?_
    · exact zpow_bounds v htaken (by omega)
    · refine zpow_bounds v hrest ?_
      rw [List.length_append]
      push_cast
      omega

/-- What is gathered is scaled to near the magnitude. -/
theorem approximates_scaled (hdigits : ∀ c ∈ n.digits, c.isDigit)
    (hu : Near (1 / 2 ^ 52) u (n.gathered.1 * unitsPerOne)) (k : ℤ) :
    Approximates (1 / 2 ^ 49) (digitsValue n.digits * 10 ^ (k - n.decimals.length) * unitsPerOne)
      (scale? u (n.gathered.2 + k)) := by
  obtain ⟨hmax, hnear⟩ := gathered_near hdigits
  have hpos : (0 : ℚ) < 10 ^ k := zpow_pos (by norm_num) k
  have hnear := (hnear.mul_right hpos.le).mul_right cast_unitsPerOne_pos.le
  rw [mul_assoc (n.gathered.1 : ℚ), mul_assoc (digitsValue n.digits : ℚ),
    ← zpow_add₀ (by norm_num), ← zpow_add₀ (by norm_num), neg_add_eq_sub] at hnear
  refine (approximates_scale? hmax hu _).of_near hnear (by norm_num) ?_ (by norm_num)
  exact mul_nonneg (mul_nonneg (Nat.cast_nonneg _) (zpow_nonneg (by norm_num) _))
    cast_unitsPerOne_pos.le


theorem exists_gathered (hdigits : ∀ c ∈ n.digits, c.isDigit) :
    ∃ u, roundUnits n.gathered.1 1 = some u ∧
      Near (1 / 2 ^ 52) u (n.gathered.1 * unitsPerOne) := by
  have hmax := Nat.mul_le_mul_right unitsPerOne (gathered_near hdigits).1
  have hlimit : 3 * (maxNatural * unitsPerOne) ≤ 2 * (unitsLimit * 1) := by decide +kernel
  obtain ⟨u, hu⟩ := exists_roundUnits Nat.one_pos ((Nat.mul_le_mul_left 3 hmax).trans hlimit)
  have hnear := (near_of_roundUnits hu).mul_right cast_unitsPerOne_pos.le
  rw [div_mul_cancel₀ _ cast_unitsPerOne_pos.ne'] at hnear
  exact ⟨u, hu, hnear⟩

/-- An exponent that is computed with no more decides alone. -/
theorem magnitude_le_half (hdigits : ∀ c ∈ n.digits, c.isDigit)
    (h : n.digits.length + 400 ≤ -n.power) : n.magnitude * unitsPerOne ≤ 1 / 2 := by
  rcases Nat.eq_zero_or_pos (digitsValue n.digits) with hzero | hpos
  · rw [magnitude, hzero, Nat.cast_zero, zero_mul, zero_mul]
    norm_num
  · have hlt := digitsValue_lt hdigits
    have hlength : 0 < n.digits.length := by
      refine Nat.pos_of_ne_zero fun hnil => ?_
      rw [hnil] at hlt
      omega
    have hwidth := (Nat.length_toDigits_le_iff (by decide) hlength).mpr hlt
    exact (value_lt_of_width hpos (by omega)).le

theorem limit_le_magnitude (hpos : 0 < digitsValue n.digits)
    (h : n.decimals.length + 400 ≤ n.power) : unitsLimit ≤ n.magnitude * unitsPerOne :=
  unitsLimit_le_of_width hpos (by omega)

theorem gathered_eq_zero_iff (hdigits : ∀ c ∈ n.digits, c.isDigit) :
    n.gathered.1 = 0 ↔ digitsValue n.digits = 0 := by
  have hzero := (gathered_near hdigits).2.eq_zero_iff (by norm_num)
    (mul_nonneg (Nat.cast_nonneg _) (zpow_nonneg (by norm_num) _))
  rw [mul_eq_zero, mul_eq_zero, or_iff_left (zpow_ne_zero _ (by norm_num)),
    or_iff_left (zpow_ne_zero _ (by norm_num))] at hzero
  exact_mod_cast hzero

/-- An exponent beyond those that are computed with -/
theorem approximates_beyond {e : Exponent} (hdigits : ∀ c ∈ n.digits, c.isDigit)
    (hexponent : n.exponent = some e) (hlength : n.digits.length + 400 ≤ digitsValue e.digits) :
    Approximates (1 / 2 ^ 49) (n.magnitude * unitsPerOne)
      (if n.gathered.1 = 0 ∨ e.negative then some 0 else none) := by
  have hdecimals : n.decimals.length ≤ n.digits.length := by
    rw [digits, List.length_append]
    exact Nat.le_add_left _ _
  split
  · next hzero =>
    refine .of_le_half (by norm_num) (mul_nonneg n.magnitude_nonneg cast_unitsPerOne_pos.le) ?_
    rcases hzero with hzero | hnegative
    · rw [magnitude, (gathered_eq_zero_iff hdigits).mp hzero, Nat.cast_zero, zero_mul, zero_mul]
      norm_num
    · refine magnitude_le_half hdigits ?_
      rw [power, hexponent]
      dsimp only
      rw [if_pos hnegative]
      omega
  · next hpositive =>
    obtain ⟨hne, hpositive⟩ := not_or.mp hpositive
    refine .of_limit_le (by norm_num) (limit_le_magnitude ?_ ?_)
    · exact Nat.pos_of_ne_zero (mt (gathered_eq_zero_iff hdigits).mpr hne)
    · rw [power, hexponent]
      dsimp only
      rw [if_neg hpositive]
      omega

/-- **The error of the conversion.** It is a part of `2 ^ -49` of the magnitude that is spelled, and
half of the least one, if there are not more digits than exponents can count. -/
theorem approximates_realUnits? (hdigits : ∀ c ∈ n.digits, c.isDigit)
    (hlength : n.digits.length + 400 ≤ maxExponent) :
    Approximates (1 / 2 ^ 49) (n.magnitude * unitsPerOne) n.realUnits? := by
  obtain ⟨u, hu, hunits⟩ := exists_gathered hdigits
  have hscaled := approximates_scaled hdigits hunits
  rw [realUnits?_eq, hu, Option.bind_some]
  cases hexponent : n.exponent with
  | none =>
    rw [magnitude, power, hexponent]
    have h := hscaled 0
    rwa [add_zero] at h
  | some e =>
    dsimp only
    split
    · next hbeyond => exact approximates_beyond hdigits hexponent (by omega)
    · rw [magnitude, power, hexponent]
      dsimp only
      split
      · exact hscaled (-digitsValue e.digits)
      · exact hscaled (digitsValue e.digits)

end Numeral

/-! ### Texts -/

/-- **How far a number of a text is from what the text spells**, whatever number it is. -/
theorem Grammar.IsNumber.approximates {s : List Char} {n : Numeral} (h : IsNumber s n)
    (hlength : s.length + 400 ≤ maxExponent) :
    Approximates (1 / 2 ^ 49) (n.magnitude * unitsPerOne) n.realUnits? := by
  cases h with
  | @mk sign w f e negative fraction exponent _ hwhole hfraction _ =>
    obtain ⟨hdigits, hdecimals⟩ := hfraction.isDigit
    refine Numeral.approximates_realUnits? ?_ ?_
    · exact List.forall_mem_append.mpr ⟨hwhole.isDigit, hdigits⟩
    · show (w ++ fraction.getD []).length + 400 ≤ maxExponent
      simp only [List.length_append] at hlength ⊢
      omega

end HttpEcho.Json
