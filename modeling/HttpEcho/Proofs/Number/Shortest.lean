import HttpEcho.Proofs.Number.Decimal
import Mathlib.Data.List.TakeWhile
import Mathlib.Data.Nat.Factorization.Basic

/-! The shortest decimals.

`shortest` tries one grid of decimals after another, from the decade of a magnitude on. On each it
finds the best decimal that reads back, if one does (`onGrid?_cases`), and on the seventeenth at the
latest there is one (`exists_readsBack`). So what it gives reads back, has the fewest digits of all
decimals that do, and no decimal with as few digits is nearer (`isShortest_shortest`). -/
namespace HttpEcho

/-! ### Written digits -/

theorem toDigits_mul_ten_pow {m : ℕ} (hm : 0 < m) (j : ℕ) :
    Nat.toDigits 10 (m * 10 ^ j) = Nat.toDigits 10 m ++ List.replicate j '0' := by
  induction j with
  | zero => simp
  | succ j ih =>
    have hpos : 0 < m * 10 ^ j := Nat.mul_pos hm (Nat.pow_pos (by decide))
    have hsplit : m * 10 ^ (j + 1) = 10 * (m * 10 ^ j) + 0 := by ring
    rw [hsplit, ← Nat.toDigits_append_toDigits (by decide) hpos (by decide), ih,
      List.append_assoc, List.replicate_succ']
    rfl

theorem getLast?_toDigits {m : ℕ} (hm : m % 10 ≠ 0) : (Nat.toDigits 10 m).getLast? ≠ some '0' := by
  rw [Nat.toDigits_eq_if (by decide)]
  have hlast (r : ℕ) (hr : r ≠ 0) : some (Nat.digitChar r) ≠ some '0' := fun heq =>
    hr (Nat.digitChar_eq_zero.mp (Option.some.inj heq))
  split
  · exact hlast m fun hzero => hm (by rw [hzero])
  · rw [List.getLast?_concat]
    exact hlast _ hm

/-- Zeros at the end are not written. -/
theorem Decimal.significant_eq {m : ℕ} (hm : m % 10 ≠ 0) (j : ℕ) (e : ℤ) :
    (Decimal.mk (m * 10 ^ j) e).significant =
      ⟨Nat.toDigits 10 m, ((Nat.toDigits 10 m).length + j : ℕ) + e⟩ := by
  have hpos : 0 < m := Nat.pos_of_ne_zero fun hzero => hm (by rw [hzero])
  have hfirst : (Nat.toDigits 10 m).reverse.dropWhile (· == '0') = (Nat.toDigits 10 m).reverse := by
    have hlast := getLast?_toDigits hm
    rw [← List.head?_reverse] at hlast
    cases hreverse : (Nat.toDigits 10 m).reverse with
    | nil => rfl
    | cons c rest =>
      rw [hreverse] at hlast
      exact List.dropWhile_cons_of_neg (by simpa using hlast)
  have hkept : ((Nat.toDigits 10 m ++ List.replicate j '0').reverse.dropWhile (· == '0')).reverse =
      Nat.toDigits 10 m := by
    rw [List.reverse_append, List.reverse_replicate, List.dropWhile_append_of_pos (by simp), hfirst,
      List.reverse_reverse]
  unfold Decimal.significant
  dsimp only
  rw [toDigits_mul_ten_pow hpos, hkept, if_neg, List.length_append, List.length_replicate]
  simp

/-- How many digits a decimal is written with. -/
def Decimal.width (d : Decimal) : ℕ := d.significant.digits.length

theorem exists_mul_ten_pow {n : ℕ} (hn : 0 < n) : ∃ m j, n = m * 10 ^ j ∧ m % 10 ≠ 0 := by
  obtain ⟨j, m, hm, heq⟩ := Nat.exists_eq_pow_mul_and_not_dvd hn.ne' 10 (by decide)
  exact ⟨m, j, heq.trans (Nat.mul_comm _ _), fun hzero => hm (Nat.dvd_of_mod_eq_zero hzero)⟩

theorem Decimal.width_eq {m : ℕ} (hm : m % 10 ≠ 0) (j : ℕ) (e : ℤ) :
    (Decimal.mk (m * 10 ^ j) e).width = (Nat.toDigits 10 m).length := by
  rw [width, significant_eq hm]

/-- The number that significant digits are. -/
def Significant.value (s : Significant) : ℚ :=
  Nat.ofDigitChars 10 s.digits 0 * 10 ^ (s.point - s.digits.length)

/-- What is written is the decimal. -/
theorem Decimal.value_significant (d : Decimal) : d.significant.value = d.value := by
  obtain ⟨n, e⟩ := d
  rcases Nat.eq_zero_or_pos n with rfl | hn
  · have hzero : (Decimal.mk 0 e).significant = ⟨['0'], 1⟩ := by simp [significant]
    have hdigit : Nat.ofDigitChars 10 ['0'] 0 = 0 := by decide
    rw [hzero, Significant.value, value, hdigit, Nat.cast_zero, zero_mul, zero_mul]
  · obtain ⟨m, j, rfl, hm⟩ := exists_mul_ten_pow hn
    have hpoint : ((Nat.toDigits 10 m).length + j : ℕ) + e - (Nat.toDigits 10 m).length = j + e := by
      push_cast
      ring
    rw [significant_eq hm, Significant.value, value]
    dsimp only
    rw [Nat.ofDigitChars_ten_toDigits, hpoint, zpow_add₀ (by norm_num), zpow_natCast,
      Nat.cast_mul, Nat.cast_pow, Nat.cast_ofNat, mul_assoc]

/-- The digits that a decimal is written with. -/
theorem Decimal.exists_width {d : Decimal} (hd : 0 < d.digits) : ∃ m j, d.digits = m * 10 ^ j ∧
    0 < d.width ∧ 10 ^ (d.width - 1) ≤ m ∧ m < 10 ^ d.width := by
  obtain ⟨n, e⟩ := d
  obtain ⟨m, j, rfl, hm⟩ := exists_mul_ten_pow hd
  have hpos : 0 < m := Nat.pos_of_ne_zero fun hzero => hm (by rw [hzero])
  rw [width_eq hm]
  exact ⟨m, j, rfl, List.length_pos_iff.mpr Nat.toDigits_ne_nil, toDigits_bounds hpos⟩

theorem Decimal.width_le {d : Decimal} (hd : 0 < d.digits) {k : ℕ} (hk : 0 < k)
    (hle : d.digits ≤ 10 ^ k) : d.width ≤ k := by
  obtain ⟨n, e⟩ := d
  obtain ⟨m, j, rfl, hm⟩ := exists_mul_ten_pow hd
  rw [width_eq hm, Nat.length_toDigits_le_iff (by decide) hk]
  have hmul : m ≤ m * 10 ^ j := Nat.le_mul_of_pos_right m (Nat.pow_pos (by decide))
  refine Nat.lt_of_le_of_ne (hmul.trans hle) ?_
  rintro rfl
  exact hm (Nat.mod_eq_zero_of_dvd (dvd_pow_self 10 hk.ne'))

/-! ### Ties -/

/-- A tie takes one point of a grid and not another. -/
def Tie.Takes : Tie → ℕ → ℕ → Prop
  | .up, taken, other => other < taken
  | .toEven, taken, _ => taken % 2 = 0

namespace Binary64
variable {u q n : ℕ} {e : ℤ} {tie : Tie} {x : ℚ} {d : Decimal}

/-! ### Grids -/

/-- How many units there are from one point of a grid to the next. -/
def spacing (e : ℤ) : ℚ := 10 ^ e * unitsPerOne

theorem spacing_pos (e : ℤ) : 0 < spacing e :=
  mul_pos (zpow_pos (by norm_num) e) cast_unitsPerOne_pos

theorem readsBack_iff : ReadsBack ⟨n, e⟩ u ↔ RoundsTo (n * spacing e) u := by
  rw [ReadsBack, Decimal.value, spacing, mul_assoc]

theorem gridRatio_spec (e : ℤ) : 0 < (gridRatio e).1 ∧ 0 < (gridRatio e).2 ∧
    ((gridRatio e).2 : ℚ) = spacing e * (gridRatio e).1 := by
  have hpow (k : ℕ) : ((Nat.pow 10 k : ℕ) : ℚ) = 10 ^ k := Nat.cast_pow 10 k
  unfold gridRatio spacing
  split
  · next he =>
    obtain ⟨k, rfl⟩ := Int.eq_ofNat_of_zero_le he
    dsimp only
    refine ⟨one_pos, Nat.mul_pos unitsPerOne_pos (Nat.pow_pos (by decide)), ?_⟩
    rw [Nat.cast_mul, Int.toNat_natCast, hpow, zpow_natCast, Nat.cast_one]
    ring
  · next he =>
    obtain ⟨k, rfl⟩ := Int.exists_eq_neg_ofNat (le_of_not_ge he)
    dsimp only
    refine ⟨Nat.pow_pos (by decide), unitsPerOne_pos, ?_⟩
    rw [neg_neg, Int.toNat_natCast, hpow, zpow_neg, zpow_natCast, mul_right_comm,
      inv_mul_cancel₀ (by positivity), one_mul]

/-! ### The interval that reads back -/

theorem ofUnits_eq (u : ℕ) : Interval.ofUnits u =
    ⟨4 * u - 2 * stepDown u, 4 * u + 2 * step u, u / step u % 2 = 0⟩ := by
  have hbelow : (if u = 2 ^ 52 * step u ∧ 1 < step u then step u else 2 * step u) =
      2 * stepDown u := by
    unfold stepDown
    split
    · next hedge =>
      have htwo := step_eq_two_mul (u := u) fun hzero => by
        have hone : step u = 1 := congrArg (2 ^ ·) hzero
        omega
      omega
    · rfl
  rw [← hbelow]
  rfl

/-- The interval of a magnitude in quarters of a unit -/
theorem isNear_iff_quarters (hu : 0 < u) (hle : stepDown u ≤ u) : IsNear x u ↔
    if u / step u % 2 = 0 then ((4 * u - 2 * stepDown u : ℕ) : ℚ) ≤ 4 * x ∧
      4 * x ≤ (4 * u + 2 * step u : ℕ)
    else ((4 * u - 2 * stepDown u : ℕ) : ℚ) < 4 * x ∧ 4 * x < (4 * u + 2 * step u : ℕ) := by
  have hlow : ((4 * u - 2 * stepDown u : ℕ) : ℚ) = 4 * (u - stepDown u / 2) := by
    rw [Nat.cast_sub (by omega)]
    push_cast
    ring
  have hhigh : ((4 * u + 2 * step u : ℕ) : ℚ) = 4 * (u + step u / 2) := by
    push_cast
    ring
  rw [hlow, hhigh]
  split
  · next heven =>
    constructor
    · rintro ⟨hlow, hhigh, -⟩
      constructor <;> linarith
    · rintro ⟨hlow, hhigh⟩
      exact ⟨by linarith, by linarith, fun _ => Nat.even_iff.mpr heven⟩
  · next hodd =>
    constructor
    · rintro ⟨hlow, hhigh, heven⟩
      have hne := mt heven (mt Nat.even_iff.mp hodd)
      rw [not_or] at hne
      have hlow := lt_of_le_of_ne hlow (Ne.symm hne.1)
      have hhigh := lt_of_le_of_ne hhigh hne.2
      constructor <;> linarith
    · rintro ⟨hlow, hhigh⟩
      refine ⟨by linarith, by linarith, ?_⟩
      rintro (rfl | rfl) <;> linarith

/-- An interval has the points that read back. -/
theorem contains_iff (hu : IsFloat u) (hpos : 0 < u) (n : ℕ) (e : ℤ) :
    (Interval.ofUnits u).contains n (gridRatio e).2 (gridRatio e).1 = true ↔
      ReadsBack ⟨n, e⟩ u := by
  obtain ⟨hnum, -, hden⟩ := gridRatio_spec e
  have hnonneg : 0 ≤ n * spacing e := mul_nonneg (Nat.cast_nonneg n) (spacing_pos e).le
  have hle := stepDown_le_self hu hpos
  have hle := stepDown_le_self hu hpos
  have hnumQ : (0 : ℚ) < (gridRatio e).1 := Nat.cast_pos.mpr hnum
  have hpoint : ((4 * n * (gridRatio e).2 : ℕ) : ℚ) = 4 * (n * spacing e) * (gridRatio e).1 := by
    push_cast
    rw [hden]
    ring
  have hbelow (low : ℕ) : low * (gridRatio e).1 ≤ 4 * n * (gridRatio e).2 ↔
      (low : ℚ) ≤ 4 * (n * spacing e) := by
    rw [← Nat.cast_le (α := ℚ), hpoint, Nat.cast_mul, mul_le_mul_iff_left₀ hnumQ]
  have habove (high : ℕ) : 4 * n * (gridRatio e).2 ≤ high * (gridRatio e).1 ↔
      4 * (n * spacing e) ≤ high := by
    rw [← Nat.cast_le (α := ℚ), hpoint, Nat.cast_mul, mul_le_mul_iff_left₀ hnumQ]
  rw [readsBack_iff, roundsTo_iff hnonneg, and_iff_right hu, ofUnits_eq,
    isNear_iff_quarters hpos (stepDown_le_self hu hpos)]
  unfold Interval.contains
  simp only [decide_eq_true_eq]
  split
  · rw [Bool.and_eq_true, decide_eq_true_iff, decide_eq_true_iff, hbelow, habove]
  · rw [Bool.and_eq_true, decide_eq_true_iff, decide_eq_true_iff, ← Nat.not_le, ← Nat.not_le,
      habove, hbelow, not_le, not_le]

/-! ### One grid -/

/-- How far a point of a grid is from a magnitude -/
def gap (u : ℕ) (e : ℤ) (n : ℕ) : ℚ := |n * spacing e - u|

/-- The best of the points of a grid that read back: the nearest, and the one that a tie takes. -/
structure IsBest (tie : Tie) (u : ℕ) (e : ℤ) (best : ℕ) : Prop where
  readsBack : ReadsBack ⟨best, e⟩ u
  nearest : ∀ n, ReadsBack ⟨n, e⟩ u → gap u e best ≤ gap u e n
  tie : ∀ n, ReadsBack ⟨n, e⟩ u → n ≠ best → gap u e best = gap u e n → tie.Takes best n
  /-- It is not more than one point beyond the magnitude. -/
  le : best * spacing e ≤ u + spacing e

/-- The last point of a grid up to a magnitude -/
def floorPoint (u : ℕ) (e : ℤ) : ℕ := u * (gridRatio e).1 / (gridRatio e).2

theorem floorPoint_bounds (u : ℕ) (e : ℤ) : floorPoint u e * spacing e ≤ u ∧
    (u : ℚ) < (floorPoint u e + 1) * spacing e := by
  obtain ⟨hnum, hdenpos, hden⟩ := gridRatio_spec e
  have hnum : (0 : ℚ) < (gridRatio e).1 := Nat.cast_pos.mpr hnum
  have hfloor : floorPoint u e * (gridRatio e).2 ≤ u * (gridRatio e).1 := Nat.div_mul_le_self _ _
  have hnext : u * (gridRatio e).1 < (floorPoint u e + 1) * (gridRatio e).2 :=
    Nat.lt_mul_of_div_lt (Nat.lt_succ_self _) hdenpos
  have hfloor : (floorPoint u e * (gridRatio e).2 : ℚ) ≤ u * (gridRatio e).1 := by
    exact_mod_cast hfloor
  have hnext : (u * (gridRatio e).1 : ℚ) < (floorPoint u e + 1) * (gridRatio e).2 := by
    exact_mod_cast hnext
  rw [hden, ← mul_assoc] at hfloor hnext
  exact ⟨le_of_mul_le_mul_right hfloor hnum, lt_of_mul_lt_mul_right hnext hnum.le⟩

/-- Of the points up to a magnitude the last reads back if any does. -/
theorem readsBack_floorPoint (hu : IsFloat u) (hn : ReadsBack ⟨n, e⟩ u) (hle : n ≤ floorPoint u e) :
    ReadsBack ⟨floorPoint u e, e⟩ u := by
  rw [readsBack_iff] at *
  have hw := spacing_pos e
  have hcast : (n : ℚ) ≤ floorPoint u e := Nat.cast_le.mpr hle
  exact hn.between hu.roundsTo (by positivity) (mul_le_mul_of_nonneg_right hcast hw.le)
    (floorPoint_bounds u e).1

/-- Of the points behind a magnitude the first reads back if any does. -/
theorem readsBack_succ_floorPoint (hu : IsFloat u) (hn : ReadsBack ⟨n, e⟩ u)
    (hlt : floorPoint u e < n) : ReadsBack ⟨floorPoint u e + 1, e⟩ u := by
  rw [readsBack_iff] at *
  have hw := spacing_pos e
  have hcast : ((floorPoint u e + 1 : ℕ) : ℚ) ≤ n := Nat.cast_le.mpr hlt
  refine hu.roundsTo.between hn (Nat.cast_nonneg u) ?_ (mul_le_mul_of_nonneg_right hcast hw.le)
  rw [Nat.cast_succ]
  exact (floorPoint_bounds u e).2.le

theorem gap_floorPoint (u : ℕ) (e : ℤ) :
    gap u e (floorPoint u e) = u - floorPoint u e * spacing e := by
  rw [gap, abs_sub_comm, abs_of_nonneg]
  linarith [(floorPoint_bounds u e).1]

theorem gap_succ_floorPoint (u : ℕ) (e : ℤ) :
    gap u e (floorPoint u e + 1) = (floorPoint u e + 1) * spacing e - u := by
  rw [gap, Nat.cast_succ, abs_of_pos]
  linarith [(floorPoint_bounds u e).2]

/-- The neighbours of a magnitude read back if anything on their side does, and are nearer. -/
theorem gap_cases (hu : IsFloat u) (hn : ReadsBack ⟨n, e⟩ u) :
    ∃ m, (m = floorPoint u e ∨ m = floorPoint u e + 1) ∧ ReadsBack ⟨m, e⟩ u ∧
      (n = m ∨ gap u e m < gap u e n) := by
  have hw := spacing_pos e
  obtain ⟨hlow, hhigh⟩ := floorPoint_bounds u e
  rcases Nat.lt_or_ge (floorPoint u e) n with hlt | hle
  · refine ⟨_, .inr rfl, readsBack_succ_floorPoint hu hn hlt, ?_⟩
    refine (Nat.eq_or_lt_of_le hlt).imp Eq.symm fun hlt => ?_
    have hfar : ((floorPoint u e + 1 : ℕ) : ℚ) * spacing e < n * spacing e :=
      mul_lt_mul_of_pos_right (Nat.cast_lt.mpr hlt) hw
    rw [Nat.cast_succ] at hfar
    rw [gap_succ_floorPoint, gap, abs_of_pos (by linarith)]
    linarith
  · refine ⟨_, .inl rfl, readsBack_floorPoint hu hn hle, ?_⟩
    refine (Nat.eq_or_lt_of_le hle).imp id fun hlt => ?_
    have hfar : (n : ℚ) * spacing e < floorPoint u e * spacing e :=
      mul_lt_mul_of_pos_right (Nat.cast_lt.mpr hlt) hw
    rw [gap_floorPoint, gap, abs_of_neg (by linarith)]
    linarith

/-- The better of the two neighbours is the best point of the grid. -/
theorem isBest_of_neighbours {best : ℕ} (hu : IsFloat u) (hread : ReadsBack ⟨best, e⟩ u)
    (hle : best ≤ floorPoint u e + 1)
    (h : ∀ n, n = floorPoint u e ∨ n = floorPoint u e + 1 → ReadsBack ⟨n, e⟩ u → n ≠ best →
      gap u e best ≤ gap u e n ∧ (gap u e best = gap u e n → tie.Takes best n)) :
    IsBest tie u e best := by
  have hall (m : ℕ) (hm : m = floorPoint u e ∨ m = floorPoint u e + 1) (hread : ReadsBack ⟨m, e⟩ u) :
      gap u e best ≤ gap u e m := by
    rcases eq_or_ne m best with rfl | hne
    · exact le_rfl
    · exact (h m hm hread hne).1
  refine ⟨hread, fun n hn => ?_, fun n hn hne heq => ?_, ?_⟩
  · obtain ⟨m, hm, hmread, rfl | hlt⟩ := gap_cases hu hn
    · exact hall _ hm hmread
    · exact (hall m hm hmread).trans hlt.le
  · obtain ⟨m, hm, hmread, rfl | hlt⟩ := gap_cases hu hn
    · exact (h _ hm hmread hne).2 heq
    · exact absurd heq ((hall m hm hmread).trans_lt hlt).ne
  · have hle : (best : ℚ) * spacing e ≤ (floorPoint u e + 1 : ℕ) * spacing e :=
      mul_le_mul_of_nonneg_right (Nat.cast_le.mpr hle) (spacing_pos e).le
    rw [Nat.cast_succ] at hle
    linarith [(floorPoint_bounds u e).1]

/-- The point half way between the neighbours of a magnitude says which is nearer. -/
theorem middle_iff (u : ℕ) (e : ℤ) :
    ((2 * floorPoint u e + 1) * (gridRatio e).2 < 2 * u * (gridRatio e).1 ↔
      gap u e (floorPoint u e + 1) < gap u e (floorPoint u e)) ∧
    ((2 * floorPoint u e + 1) * (gridRatio e).2 = 2 * u * (gridRatio e).1 ↔
      gap u e (floorPoint u e + 1) = gap u e (floorPoint u e)) := by
  obtain ⟨hnum, -, hden⟩ := gridRatio_spec e
  have hnum : (0 : ℚ) < (gridRatio e).1 := Nat.cast_pos.mpr hnum
  have hmiddle : (((2 * floorPoint u e + 1) * (gridRatio e).2 : ℕ) : ℚ) =
      (2 * floorPoint u e + 1) * spacing e * (gridRatio e).1 := by
    push_cast
    rw [hden]
    ring
  have htwice : ((2 * u * (gridRatio e).1 : ℕ) : ℚ) = 2 * u * (gridRatio e).1 := by push_cast; rfl
  rw [gap_floorPoint, gap_succ_floorPoint, ← Nat.cast_lt (α := ℚ), ← Nat.cast_inj (R := ℚ),
    hmiddle, htwice, mul_lt_mul_iff_left₀ hnum, mul_left_inj' hnum.ne']
  constructor <;> constructor <;> intro h <;> linarith

/-- **On a grid the best point is found**, if one reads back. -/
theorem onGrid?_cases (hu : IsFloat u) (hpos : 0 < u) (tie : Tie) (e : ℤ) :
    (∃ best, onGrid? tie u e = some ⟨best, e⟩ ∧ IsBest tie u e best) ∨
      onGrid? tie u e = none ∧ ∀ n, ¬ ReadsBack ⟨n, e⟩ u := by
  have hlow := contains_iff hu hpos (floorPoint u e) e
  have hhigh := contains_iff hu hpos (floorPoint u e + 1) e
  obtain ⟨hless, hsame⟩ := middle_iff u e
  obtain ⟨num, den, hratio⟩ : ∃ num den, gridRatio e = (num, den) := ⟨_, _, rfl⟩
  have hfloor : u * num / den = floorPoint u e := by rw [floorPoint, hratio]
  unfold onGrid?
  rw [hratio] at hlow hhigh hless hsame ⊢
  dsimp only at hlow hhigh hless hsame ⊢
  rw [hfloor]
  cases hq : (Interval.ofUnits u).contains (floorPoint u e) den num with
  | false =>
    have hlow := hlow.not.mp (by simp [hq])
    cases hq' : (Interval.ofUnits u).contains (floorPoint u e + 1) den num with
    | false =>
      have hhigh := hhigh.not.mp (by simp [hq'])
      refine .inr ⟨rfl, fun n hn => ?_⟩
      obtain ⟨m, rfl | rfl, hread, -⟩ := gap_cases hu hn
      · exact hlow hread
      · exact hhigh hread
    | true =>
      refine .inl ⟨_, rfl, isBest_of_neighbours hu (hhigh.mp hq') le_rfl ?_⟩
      rintro n (rfl | rfl) hread hne
      · exact absurd hread hlow
      · exact absurd rfl hne
  | true =>
    have hlow := hlow.mp hq
    cases hq' : (Interval.ofUnits u).contains (floorPoint u e + 1) den num with
    | false =>
      have hhigh := hhigh.not.mp (by simp [hq'])
      refine .inl ⟨_, rfl, isBest_of_neighbours hu hlow (Nat.le_succ _) ?_⟩
      rintro n (rfl | rfl) hread hne
      · exact absurd rfl hne
      · exact absurd hread hhigh
    | true =>
      have hhigh := hhigh.mp hq'
      simp only [Bool.or_eq_true, Bool.and_eq_true, decide_eq_true_eq, hless, hsame]
      split
      · next hup =>
        refine .inl ⟨_, rfl, isBest_of_neighbours hu hhigh le_rfl ?_⟩
        rintro n (rfl | rfl) hread hne
        · rcases hup with hlt | ⟨heq, htie⟩
          · exact ⟨hlt.le, fun heq => absurd heq hlt.ne⟩
          · refine ⟨heq.le, fun _ => ?_⟩
            cases tie with
            | up => exact Nat.lt_succ_self _
            | toEven =>
              have hodd : floorPoint u e % 2 = 1 := by simpa using htie
              show (floorPoint u e + 1) % 2 = 0
              omega
        · exact absurd rfl hne
      · next hup =>
        have hge : gap u e (floorPoint u e) ≤ gap u e (floorPoint u e + 1) :=
          not_lt.mp fun hlt => hup (.inl hlt)
        refine .inl ⟨_, rfl, isBest_of_neighbours hu hlow (Nat.le_succ _) ?_⟩
        rintro n (rfl | rfl) hread hne
        · exact absurd rfl hne
        · refine ⟨hge, fun heq => ?_⟩
          have htie := fun h => hup (.inr ⟨heq.symm, h⟩)
          cases tie with
          | up => exact absurd (.inl rfl) htie
          | toEven =>
            have heven : floorPoint u e % 2 ≠ 1 := by simpa using htie
            show floorPoint u e % 2 = 0
            omega

/-! ### The decade -/

theorem spacing_add (e : ℤ) (k : ℕ) : spacing (e + k) = 10 ^ k * spacing e := by
  rw [spacing, spacing, zpow_add₀ (by norm_num), zpow_natCast]
  ring

theorem spacing_lt_iff {e f : ℤ} : spacing e < spacing f ↔ e < f := by
  rw [spacing, spacing, mul_lt_mul_iff_left₀ cast_unitsPerOne_pos]
  exact zpow_lt_zpow_iff_right₀ (by norm_num)

theorem spacing_le_iff (n : ℕ) (e : ℤ) :
    (gridRatio e).2 ≤ n * (gridRatio e).1 ↔ spacing e ≤ n := by
  obtain ⟨hnum, -, hden⟩ := gridRatio_spec e
  have hnum : (0 : ℚ) < (gridRatio e).1 := Nat.cast_pos.mpr hnum
  rw [← Nat.cast_le (α := ℚ), Nat.cast_mul, hden, mul_le_mul_iff_left₀ hnum]

theorem le_spacing_iff (n : ℕ) (e : ℤ) :
    n * (gridRatio e).1 ≤ (gridRatio e).2 ↔ n ≤ spacing e := by
  obtain ⟨hnum, -, hden⟩ := gridRatio_spec e
  have hnum : (0 : ℚ) < (gridRatio e).1 := Nat.cast_pos.mpr hnum
  rw [← Nat.cast_le (α := ℚ), Nat.cast_mul, hden, mul_le_mul_iff_left₀ hnum]

/-- Where the decade of the magnitudes with a first bit is looked for -/
def decadeStart (bit : ℕ) : ℤ := ((bit : ℤ) - 1074) * 30103 / 100000 - 1

/-- It is not far from there. -/
theorem decadeStart_bounds : ∀ bit ∈ List.range 2098,
    (gridRatio (decadeStart bit)).2 ≤ Nat.pow 2 bit * (gridRatio (decadeStart bit)).1 ∧
      Nat.pow 2 (bit + 1) * (gridRatio (decadeStart bit + 5)).1 ≤
        (gridRatio (decadeStart bit + 5)).2 := by
  decide +kernel

theorem decadeFrom_spec (tries : ℕ) (hlow : spacing e ≤ u) (hhigh : u < spacing (e + tries + 1)) :
    spacing (decadeFrom u tries e) ≤ u ∧ u < spacing (decadeFrom u tries e + 1) := by
  induction tries generalizing e with
  | zero =>
    rw [Nat.cast_zero, add_zero] at hhigh
    exact ⟨hlow, hhigh⟩
  | succ tries ih =>
    have hstep : decadeFrom u (tries + 1) e =
        if (gridRatio (e + 1)).2 ≤ u * (gridRatio (e + 1)).1 then decadeFrom u tries (e + 1)
        else e := rfl
    rw [hstep]
    split
    · next hle =>
      refine ih ((spacing_le_iff u (e + 1)).mp hle) ?_
      rwa [Nat.cast_succ, add_comm (tries : ℤ), ← add_assoc] at hhigh
    · next hlt => exact ⟨hlow, not_le.mp (mt (spacing_le_iff u (e + 1)).mpr hlt)⟩

/-- **The decade of a magnitude**: the power of ten up to it. -/
theorem decade_spec (hpos : 0 < u) (hlimit : u < unitsLimit) :
    spacing (decade u) ≤ u ∧ u < spacing (decade u + 1) := by
  have hlimit' : unitsLimit = 2 ^ 2098 := by decide +kernel
  rw [hlimit'] at hlimit
  have hbit : u.log2 < 2098 := by
    generalize 2098 = bits at hlimit ⊢
    exact (Nat.log2_lt hpos.ne').mpr hlimit
  obtain ⟨hlow, hhigh⟩ := decadeStart_bounds u.log2 (List.mem_range.mpr hbit)
  have hself : ((Nat.pow 2 u.log2 : ℕ) : ℚ) ≤ u := Nat.cast_le.mpr (Nat.log2_self_le hpos.ne')
  have hnext : (u : ℚ) < (Nat.pow 2 (u.log2 + 1) : ℕ) := Nat.cast_lt.mpr Nat.lt_log2_self
  have hstart : decadeStart u.log2 + (4 : ℕ) + 1 = decadeStart u.log2 + 5 := by
    rw [Nat.cast_ofNat, add_assoc]
    rfl
  refine decadeFrom_spec 4 (((spacing_le_iff _ _).mp hlow).trans hself) ?_
  refine hnext.trans_le (((le_spacing_iff _ _).mp hhigh).trans_eq ?_)
  exact congrArg spacing hstart.symm

/-! ### One grid after another -/

theorem two_mul_lt_steps (u : ℕ) : 2 * u < 10 ^ 16 * (stepDown u + step u) := by
  have hlt := lt_step_mul u
  unfold stepDown
  split
  · next hedge =>
    have htwo := step_eq_two_mul (u := u) fun hzero => by
      have hone : step u = 1 := congrArg (2 ^ ·) hzero
      omega
    omega
  · omega

/-- Where sixteen digits stand before the point, a neighbour of the magnitude reads back. -/
theorem exists_readsBack (hu : IsFloat u) (hfine : 10 ^ 16 * spacing e ≤ u) :
    ∃ n, ReadsBack ⟨n, e⟩ u := by
  have hsteps : (2 * u : ℚ) < 10 ^ 16 * (stepDown u + step u) := by
    exact_mod_cast two_mul_lt_steps u
  have hw := spacing_pos e
  have hup : (0 : ℚ) < step u := by exact_mod_cast step_pos u
  have hdown : (0 : ℚ) < stepDown u := by exact_mod_cast stepDown_pos u
  obtain ⟨hlow, hhigh⟩ := floorPoint_bounds u e
  have hnonneg (n : ℕ) : 0 ≤ n * spacing e := mul_nonneg (Nat.cast_nonneg n) hw.le
  rcases lt_or_ge (u - stepDown u / 2 : ℚ) (floorPoint u e * spacing e) with hnear | hfar
  · refine ⟨floorPoint u e, readsBack_iff.mpr ((roundsTo_iff (hnonneg _)).mpr ⟨hu, ?_⟩)⟩
    refine ⟨hnear.le, by linarith, ?_⟩
    rintro (heq | heq) <;> linarith
  · refine ⟨floorPoint u e + 1, readsBack_iff.mpr ((roundsTo_iff (hnonneg _)).mpr ⟨hu, ?_⟩)⟩
    rw [Nat.cast_succ]
    refine ⟨by linarith, by linarith, ?_⟩
    rintro (heq | heq) <;> linarith

theorem digits_pos (hpos : 0 < u) (hd : ReadsBack d u) : 0 < d.digits := by
  refine Nat.pos_of_ne_zero fun hzero => hpos.ne ?_
  rw [ReadsBack, Decimal.value, hzero, Nat.cast_zero, zero_mul, zero_mul] at hd
  exact roundsTo_zero.unique le_rfl hd

/-- What a decimal comes to in units, with the digits that it is written with -/
theorem exists_width (hd : 0 < d.digits) :
    ∃ (m : ℕ) (f : ℤ), d.value * unitsPerOne = m * spacing f ∧ 0 < d.width ∧
      spacing (f + (d.width - 1 : ℕ)) ≤ m * spacing f ∧ m * spacing f < spacing (f + d.width) := by
  obtain ⟨m, j, hdigits, hwidth, hge, hlt⟩ := Decimal.exists_width hd
  have hw := spacing_pos (d.exponent + j)
  have hge : (10 ^ (d.width - 1) : ℚ) ≤ m := by exact_mod_cast hge
  have hlt : (m : ℚ) < 10 ^ d.width := by exact_mod_cast hlt
  refine ⟨m, d.exponent + j, ?_, hwidth, ?_, ?_⟩
  · rw [Decimal.value, hdigits, spacing_add, spacing]
    push_cast
    ring
  · rw [spacing_add _ (d.width - 1)]
    exact mul_le_mul_of_nonneg_right hge hw.le
  · rw [spacing_add _ d.width]
    exact mul_lt_mul_of_pos_right hlt hw

/-- A decimal that reads back is a point of a grid that is as fine as it has digits, or farther away
than a point of it that reads back. -/
theorem exists_point (hu : IsFloat u) (hpos : 0 < u) (hlimit : u < unitsLimit)
    (hd : ReadsBack d u) : 0 < d.width ∧ ∃ k, ReadsBack ⟨k, decade u - (d.width - 1 : ℕ)⟩ u ∧
      (d.value * unitsPerOne = k * spacing (decade u - (d.width - 1 : ℕ)) ∨
        gap u (decade u - (d.width - 1 : ℕ)) k < |d.value * unitsPerOne - u|) := by
  obtain ⟨hlow, hhigh⟩ := decade_spec hpos hlimit
  obtain ⟨m, f, hvalue, hwidth, hge, hlt⟩ := exists_width (digits_pos hpos hd)
  have hnonneg : 0 ≤ d.value * unitsPerOne :=
    mul_nonneg d.value_nonneg cast_unitsPerOne_pos.le
  have hfirst := spacing_add (decade u - (d.width - 1 : ℕ)) (d.width - 1)
  rw [sub_add_cancel] at hfirst
  have hsecond := spacing_add (decade u - (d.width - 1 : ℕ)) d.width
  rw [show decade u - (d.width - 1 : ℕ) + (d.width : ℤ) = decade u + 1 by omega] at hsecond
  unfold ReadsBack at hd
  refine ⟨hwidth, ?_⟩
  rcases le_or_gt (d.value * unitsPerOne) (spacing (decade u)) with hbelow | habove
  · -- below the decade
    refine ⟨10 ^ (d.width - 1), ?_, ?_⟩
    · rw [readsBack_iff, Nat.cast_pow, Nat.cast_ofNat, ← hfirst]
      exact hd.between hu.roundsTo hnonneg hbelow hlow
    · rw [gap, Nat.cast_pow, Nat.cast_ofNat, ← hfirst]
      refine hbelow.eq_or_lt.imp id fun hbelow => ?_
      rw [abs_sub_comm, abs_of_nonneg (by linarith), abs_sub_comm, abs_of_pos (by linarith)]
      linarith
  rcases le_or_gt (spacing (decade u + 1)) (d.value * unitsPerOne) with hbeyond | hinside
  · -- beyond the decade
    refine ⟨10 ^ d.width, ?_, ?_⟩
    · rw [readsBack_iff, Nat.cast_pow, Nat.cast_ofNat, ← hsecond]
      exact hu.roundsTo.between hd (Nat.cast_nonneg u) hhigh.le hbeyond
    · rw [gap, Nat.cast_pow, Nat.cast_ofNat, ← hsecond]
      refine hbeyond.eq_or_lt.imp Eq.symm fun hbeyond => ?_
      rw [abs_of_pos (by linarith), abs_of_pos (by linarith)]
      linarith
  · -- in the decade, so the width says which grid it is
    rw [hvalue] at habove hinside hd ⊢
    have hupper := spacing_lt_iff.mp (hge.trans_lt hinside)
    have hlower := spacing_lt_iff.mp (habove.trans hlt)
    have hf : f = decade u - (d.width - 1 : ℕ) := by omega
    rw [← hf]
    exact ⟨m, readsBack_iff.mpr hd, .inl rfl⟩

/-- The first grid from an exponent on with a point that reads back has the result. -/
theorem shortestFrom_spec (hu : IsFloat u) (hpos : 0 < u) (tie : Tie) {grids : ℕ}
    (hhit : ∃ k < grids, ∃ n, ReadsBack ⟨n, e - k⟩ u) :
    ∃ k < grids, (∀ j < k, ∀ n, ¬ ReadsBack ⟨n, e - j⟩ u) ∧
      ∃ best, shortestFrom tie u grids e = ⟨best, e - k⟩ ∧ IsBest tie u (e - k) best := by
  induction grids generalizing e with
  | zero =>
    obtain ⟨k, hk, -⟩ := hhit
    cases hk
  | succ grids ih =>
    have hstep : shortestFrom tie u (grids + 1) e =
        (onGrid? tie u e).getD (shortestFrom tie u grids (e - 1)) := by
      rw [shortestFrom]
      cases onGrid? tie u e <;> rfl
    rcases onGrid?_cases hu hpos tie e with ⟨best, hfound, hbest⟩ | ⟨hnone, hmiss⟩
    · refine ⟨0, Nat.succ_pos _, nofun, best, ?_, ?_⟩
      · rw [hstep, hfound, Nat.cast_zero, sub_zero]
        rfl
      · rwa [Nat.cast_zero, sub_zero]
    · have hnext (j : ℕ) : e - 1 - j = e - (j + 1 : ℕ) := by
        rw [Nat.cast_succ]
        ring
      have hrest : ∃ k < grids, ∃ n, ReadsBack ⟨n, e - 1 - k⟩ u := by
        obtain ⟨k, hk, n, hn⟩ := hhit
        cases k with
        | zero =>
          rw [Nat.cast_zero, sub_zero] at hn
          exact absurd hn (hmiss n)
        | succ k => exact ⟨k, Nat.lt_of_succ_lt_succ hk, n, hnext k ▸ hn⟩
      obtain ⟨k, hk, hearlier, best, hfound, hbest⟩ := ih hrest
      refine ⟨k + 1, Nat.succ_lt_succ hk, fun j hj => ?_, best, ?_, hnext k ▸ hbest⟩
      · cases j with
        | zero =>
          rw [Nat.cast_zero, sub_zero]
          exact hmiss
        | succ j => exact hnext j ▸ hearlier j (Nat.lt_of_succ_lt_succ hj)
      · rw [hstep, hnone, ← hnext]
        exact hfound

/-! ### The shortest decimal -/

/-- A decimal is the shortest of a magnitude: it reads back, no decimal that does has fewer digits,
and none with as few is nearer. What is as near is what a tie does not take. -/
structure IsShortest (tie : Tie) (u : ℕ) (d : Decimal) : Prop where
  readsBack : ReadsBack d u
  fewest : ∀ d', ReadsBack d' u → d.width ≤ d'.width
  nearest : ∀ d', ReadsBack d' u → d'.width = d.width →
    |d.value * unitsPerOne - u| ≤ |d'.value * unitsPerOne - u|
  tie : ∀ d', ReadsBack d' u → d'.width = d.width → d'.value ≠ d.value →
    |d.value * unitsPerOne - u| = |d'.value * unitsPerOne - u| →
      (tie = .up → d'.value < d.value) ∧ (tie = .toEven → d.digits % 2 = 0)

/-- The best point of the first grid with one that reads back is the shortest decimal. -/
theorem IsBest.isShortest (hu : IsFloat u) (hpos : 0 < u) (hlimit : u < unitsLimit) {k best : ℕ}
    (hearlier : ∀ j < k, ∀ n, ¬ ReadsBack ⟨n, decade u - j⟩ u)
    (hbest : IsBest tie u (decade u - k) best) : IsShortest tie u ⟨best, decade u - k⟩ := by
  have hw := spacing_pos (decade u - k)
  have hone := cast_unitsPerOne_pos
  have hunits (n : ℕ) : Decimal.value ⟨n, decade u - k⟩ * unitsPerOne =
      n * spacing (decade u - k) := by
    rw [Decimal.value, spacing, mul_assoc]
  have hwidth : Decimal.width ⟨best, decade u - k⟩ ≤ k + 1 := by
    refine Decimal.width_le (digits_pos hpos hbest.readsBack) (Nat.succ_pos k) ?_
    have hnext := spacing_add (decade u - k) (k + 1)
    rw [Nat.cast_succ, ← add_assoc, sub_add_cancel] at hnext
    have hhigh := (decade_spec hpos hlimit).2
    have hle := hbest.le
    have hmul : best * spacing (decade u - k) < (10 ^ (k + 1) + 1) * spacing (decade u - k) := by
      linarith
    have hlt : (best : ℚ) < 10 ^ (k + 1) + 1 := lt_of_mul_lt_mul_right hmul hw.le
    exact Nat.lt_succ_iff.mp (by exact_mod_cast hlt)
  have hcoarse (d : Decimal) (hd : ReadsBack d u) : k + 1 ≤ d.width := by
    obtain ⟨hpositive, n, hn, -⟩ := exists_point hu hpos hlimit hd
    have hge : ¬ d.width - 1 < k := fun hlt => hearlier _ hlt n hn
    omega
  -- A decimal with as few digits is a point of the same grid, or farther away than one.
  have hpoint (d : Decimal) (hd : ReadsBack d u)
      (hsame : d.width = Decimal.width ⟨best, decade u - k⟩) :
      ∃ n, ReadsBack ⟨n, decade u - k⟩ u ∧ (d.value * unitsPerOne = n * spacing (decade u - k) ∨
        gap u (decade u - k) n < |d.value * unitsPerOne - u|) := by
    obtain ⟨-, hexists⟩ := exists_point hu hpos hlimit hd
    have hk : d.width - 1 = k := by
      have hge := hcoarse d hd
      omega
    rwa [hk] at hexists
  refine ⟨hbest.readsBack, fun d hd => hwidth.trans (hcoarse d hd), fun d hd hsame => ?_,
    fun d hd hsame hne heq => ?_⟩
  · obtain ⟨n, hn, hvalue | hfar⟩ := hpoint d hd hsame
    · rw [hunits, hvalue]
      exact hbest.nearest n hn
    · rw [hunits]
      exact (hbest.nearest n hn).trans hfar.le
  · obtain ⟨n, hn, hvalue | hfar⟩ := hpoint d hd hsame
    · rw [hunits, hvalue] at heq
      rw [← hunits] at hvalue
      have hvalue := mul_right_cancel₀ hone.ne' hvalue
      have hdiffers : n ≠ best := by
        rintro rfl
        exact hne hvalue
      have htakes := hbest.tie n hn hdiffers heq
      constructor
      · rintro rfl
        rw [hvalue]
        exact mul_lt_mul_of_pos_right (Nat.cast_lt.mpr htakes) (zpow_pos (by norm_num) _)
      · rintro rfl
        exact htakes
    · rw [hunits] at heq
      exact absurd heq ((hbest.nearest n hn).trans_lt hfar).ne

/-- **`shortest` gives the shortest decimal** of every magnitude that is a float. -/
theorem isShortest_shortest (tie : Tie) (hu : IsFloat u) (hpos : 0 < u) (hlimit : u < unitsLimit) :
    IsShortest tie u (shortest tie u) := by
  have hfine : 10 ^ 16 * spacing (decade u - (16 : ℕ)) ≤ u := by
    rw [← spacing_add, sub_add_cancel]
    exact (decade_spec hpos hlimit).1
  have hhit : ∃ k : ℕ, k < 17 ∧ ∃ n, ReadsBack ⟨n, decade u - k⟩ u :=
    ⟨16, by decide, exists_readsBack hu hfine⟩
  obtain ⟨k, -, hearlier, best, hfound, hbest⟩ := shortestFrom_spec hu hpos tie hhit
  rw [shortest, if_neg hpos.ne', hfound]
  exact hbest.isShortest hu hpos hlimit hearlier

theorem readsBack_shortest (tie : Tie) (hu : IsFloat u) (hlimit : u < unitsLimit) :
    ReadsBack (shortest tie u) u := by
  rcases Nat.eq_zero_or_pos u with rfl | hpos
  · show RoundsTo (Decimal.value ⟨0, 0⟩ * unitsPerOne) 0
    rw [Decimal.value, Nat.cast_zero, zero_mul, zero_mul]
    exact roundsTo_zero
  · exact (isShortest_shortest tie hu hpos hlimit).readsBack

/-- The shortest decimal is read as the number that it is of. -/
theorem ofDecimal_shortest (tie : Tie) (hu : IsFloat u) (hlimit : u < unitsLimit)
    (negative : Bool) :
    ofDecimal negative (shortest tie u).digits (shortest tie u).exponent = some ⟨negative, u⟩ :=
  ofDecimal_eq_some_iff.mpr ⟨rfl, hlimit, readsBack_shortest tie hu hlimit⟩

end Binary64
end HttpEcho
