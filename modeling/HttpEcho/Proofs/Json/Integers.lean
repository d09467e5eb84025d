import HttpEcho.Proofs.Json.Canonical

/-! What becomes of integers.

An integer literal is written digit for digit exactly when it fits 64 bits, with or without a sign,
and is no negated zero (`normalize_integer`). A literal that does not is not written as another one:
it becomes the numeral of a binary64 number, which a point or an exponent tells from every literal,
or null if its conversion leaves the finite numbers. -/
namespace HttpEcho.Json

open Grammar

/-! ### Digits of a value -/

/-- A whole part is the only one of its value. -/
theorem toDigits_digitsValue {w : List Char} (h : IsWhole w) :
    Nat.toDigits 10 (digitsValue w) = w := by
  have hdecimal : Unsigned.IsDecimal w (digitsValue w) :=
    ⟨by cases h <;> exact List.cons_ne_nil _ _, h.isDigit, rfl⟩
  refine (hdecimal.eq_toDigits_iff.mpr ?_).symm
  cases h with
  | zero => exact fun _ => rfl
  | digits _ hne _ => exact fun hzero => absurd (Option.some.inj hzero) hne

theorem digitsValue_pos_iff {w : List Char} (h : IsWhole w) : 0 < digitsValue w ↔ w ≠ ['0'] := by
  constructor
  · rintro hpos rfl
    exact Nat.lt_irrefl 0 hpos
  · intro hne
    refine Nat.pos_of_ne_zero fun hzero => hne ?_
    rw [← toDigits_digitsValue h, hzero]
    rfl

/-! ### Literals -/

variable {w : List Char} {n : Numeral} {i : Int}

theorem Numeral.IsLiteral.unique {j : Int} (hi : n.IsLiteral i) (hj : n.IsLiteral j) : i = j := by
  cases hi <;> cases hj <;> rfl

/-- The text of a literal is its whole part, after a minus if it has one. -/
theorem Numeral.IsLiteral.text (hi : n.IsLiteral i) (hw : IsNumber w n) :
    IsWhole n.whole ∧ w = signText n.negative ++ n.whole := by
  obtain ⟨hsign, hwhole, hfraction, hexponent⟩ := hw
  cases hi <;> cases hsign <;> cases hfraction <;> cases hexponent <;>
    exact ⟨hwhole, by rw [List.append_nil, List.append_nil]; rfl⟩

/-- A literal is kept exactly just when it fits 64 bits and is not `-0`. -/
theorem Numeral.IsLiteral.isExact_iff (hi : n.IsLiteral i) (hw : IsNumber w n) :
    n.IsExact i ↔ w ≠ ['-', '0'] ∧ -2 ^ 63 ≤ i ∧ i ≤ 2 ^ 64 - 1 := by
  obtain ⟨hwhole, rfl⟩ := hi.text hw
  cases hi with
  | @plain w =>
    have hne : w ≠ ['-', '0'] := by
      rintro rfl
      exact absurd (hwhole.isDigit '-' List.mem_cons_self) (by decide)
    rw [Numeral.isExact_plain, maxNatural]
    constructor
    · exact fun h => ⟨hne, by omega, by omega⟩
    · exact fun h => ⟨by omega, rfl⟩
  | @negated w =>
    have hne : '-' :: w ≠ ['-', '0'] ↔ 0 < digitsValue w := by
      rw [digitsValue_pos_iff hwhole, Ne, List.cons_inj_right]
    rw [Numeral.isExact_negated, maxNegated]
    show _ ↔ '-' :: w ≠ ['-', '0'] ∧ _
    rw [hne]
    constructor
    · exact fun h => ⟨h.1.1, by omega, by omega⟩
    · exact fun h => ⟨⟨h.1, by omega⟩, rfl⟩

/-- A literal that is kept exactly is the text of its integer. -/
theorem Numeral.IsExact.text_eq (hi : n.IsExact i) (hw : IsNumber w n) :
    (Number.integer i).text = w := by
  obtain ⟨hwhole, rfl⟩ := hi.literal.text hw
  have hdigits := toDigits_digitsValue hwhole
  obtain ⟨hi, -, -, hzero⟩ := hi
  cases hi with
  | @plain w =>
    rw [Number.text, if_neg (by omega), Int.natAbs_natCast, hdigits]
    rfl
  | @negated w =>
    have hneg : -(digitsValue w : Int) < 0 := by
      have hne : ¬ (-(digitsValue w : Int) = 0) := fun h => hzero ⟨rfl, h⟩
      omega
    rw [Number.text, if_pos hneg, Int.natAbs_neg, Int.natAbs_natCast, hdigits]
    rfl

/-! ### Binary64 numbers -/

theorem point_mem_positional (s : Significant) : '.' ∈ s.positional := by
  unfold Significant.positional
  by_cases hle : s.point ≤ 0
  · rw [if_pos hle]
    exact List.mem_cons_of_mem _ List.mem_cons_self
  rw [if_neg hle]
  by_cases hlong : (s.digits.length : Int) ≤ s.point
  · rw [if_pos hlong]
    exact List.mem_append_right _ List.mem_cons_self
  · rw [if_neg hlong]
    exact List.mem_append_right _ List.mem_cons_self

theorem exponent_mem_scientific (s : Significant) : 'e' ∈ s.scientific :=
  List.mem_append_right _ List.mem_cons_self

/-- The text of a binary64 number is no literal: it has a point or an exponent. -/
theorem Number.point_or_exponent (x : Binary64) :
    '.' ∈ (Number.real x).text ∨ 'e' ∈ (Number.real x).text := by
  unfold Number.text
  simp only [List.mem_append]
  by_cases hplace : -4 ≤ (Binary64.shortest .toEven x.units).significant.point ∧
      (Binary64.shortest .toEven x.units).significant.point ≤ 16
  · rw [if_pos hplace]
    exact Or.inl (Or.inr (point_mem_positional _))
  · rw [if_neg hplace]
    exact Or.inr (Or.inr (exponent_mem_scientific _))

theorem Numeral.IsLiteral.no_point_nor_exponent (hi : n.IsLiteral i) (hw : IsNumber w n) :
    '.' ∉ w ∧ 'e' ∉ w := by
  obtain ⟨hwhole, rfl⟩ := hi.text hw
  have hnot : ∀ c : Char, c.isDigit = false → c ≠ '-' → c ∉ signText n.negative ++ n.whole := by
    intro c hdigit hminus hmem
    rcases List.mem_append.mp hmem with hmem | hmem
    · unfold signText at hmem
      split_ifs at hmem
      · exact hminus (List.mem_singleton.mp hmem)
      · cases hmem
    · rw [hwhole.isDigit c hmem] at hdigit
      cases hdigit
  exact ⟨hnot '.' (by decide) (by decide), hnot 'e' (by decide) (by decide)⟩

/-! ### Bodies -/

/-- A body that is a number has the value that its numeral denotes. -/
theorem read_number_iff {a b : List Char} (ha : Blanks a) (hw : IsNumber w n) (hb : Blanks b)
    {v : Value} :
    read (Utf8.encode (a ++ (w ++ b))) = .ok v ↔ ∃ x, n.number? = some x ∧ v = .number x := by
  have helement : IsElement (a ++ (w ++ b)) (.number n) := .mk ha (.number hw) hb
  rw [read_eq_ok_iff, Utf8.decodeLossy_encode, nestingDepth_encode helement]
  constructor
  · rintro ⟨-, t, ht, hv⟩
    obtain rfl := helement.unique ht
    cases hv with
    | number hx => exact ⟨_, Numeral.number?_eq_some_iff.mpr hx, rfl⟩
  · rintro ⟨x, hx, rfl⟩
    exact ⟨Nat.zero_le _, _, helement, .number (Numeral.number?_eq_some_iff.mp hx)⟩

theorem normalize_number {a b : List Char} (ha : Blanks a) (hw : IsNumber w n) (hb : Blanks b) :
    normalize (Utf8.encode (a ++ (w ++ b))) =
      Utf8.encode ((n.number?.map Number.text).getD ['n', 'u', 'l', 'l']) := by
  cases hx : n.number? with
  | some x =>
    rw [normalize_of_read ((read_number_iff ha hw hb).mpr ⟨x, hx, rfl⟩), encode_eq]
    rfl
  | none =>
    cases hread : read (Utf8.encode (a ++ (w ++ b))) with
    | error r =>
      rw [normalize_of_error hread, encode_eq]
      rfl
    | ok v =>
      obtain ⟨x, hsome, -⟩ := (read_number_iff ha hw hb).mp hread
      rw [hx] at hsome
      cases hsome

/-- **Integers are never altered silently.** A body that is an integer literal, whatever its length
and whatever blanks are around it, is written digit for digit exactly when it is not `-0` and fits
64 bits, with or without a sign. Any other literal becomes null, if its conversion overflows, or a
number with a point or an exponent. -/
theorem normalize_integer {a b : List Char} (ha : Blanks a) (hw : IsNumber w n)
    (hi : n.IsLiteral i) (hb : Blanks b) :
    (normalize (Utf8.encode (a ++ (w ++ b))) = Utf8.encode w ↔
      w ≠ ['-', '0'] ∧ -2 ^ 63 ≤ i ∧ i ≤ 2 ^ 64 - 1) ∧
    (¬ (w ≠ ['-', '0'] ∧ -2 ^ 63 ≤ i ∧ i ≤ 2 ^ 64 - 1) →
      (n.realUnits? = none ∧
        normalize (Utf8.encode (a ++ (w ++ b))) = Utf8.encode ['n', 'u', 'l', 'l']) ∨
      ∃ x : Binary64, n.realUnits? = some x.units ∧ x.negative = n.negative ∧
        normalize (Utf8.encode (a ++ (w ++ b))) = Utf8.encode (Number.real x).text ∧
          IsNumber (Number.real x).text (Number.real x).numeral ∧
            ('.' ∈ (Number.real x).text ∨ 'e' ∈ (Number.real x).text)) := by
  rw [← hi.isExact_iff hw, normalize_number ha hw hb]
  rcases n.number?_eq with ⟨j, hj, hnumber⟩ | ⟨hnone, hnumber⟩
  · obtain rfl : i = j := hi.unique hj.literal
    rw [hnumber]
    refine ⟨iff_of_true ?_ hj, fun h => absurd hj h⟩
    rw [← hj.text_eq hw]
    rfl
  -- A literal has no letter and no point, so what is written is none.
  have hliteral := hi.no_point_nor_exponent hw
  rw [hnumber]
  cases hunits : n.realUnits? with
  | none =>
    refine ⟨iff_of_false (fun hsame => ?_) (hnone i), fun _ => Or.inl ⟨rfl, rfl⟩⟩
    have hletter : 'n' ∈ w := Utf8.encode_injective hsame ▸ List.mem_cons_self
    exact absurd (hw.isNumeralChar 'n' hletter) (by decide)
  | some units =>
    have hmark := Number.point_or_exponent ⟨n.negative, units⟩
    refine ⟨iff_of_false (fun hsame => ?_) (hnone i), fun _ => Or.inr
      ⟨⟨n.negative, units⟩, rfl, rfl, rfl, Number.isNumber_text _, hmark⟩⟩
    have htext : (Number.real ⟨n.negative, units⟩).text = w := Utf8.encode_injective hsame
    rw [htext] at hmark
    exact hmark.elim hliteral.1 hliteral.2

/-- The least integer that is kept, with blanks around it. -/
theorem normalize_integer_least :
    normalize (Utf8.encode ("\t-9223372036854775808 \n".toList)) =
      Utf8.encode "-9223372036854775808".toList := by
  have hblanks : Blanks ['\t'] ∧ Blanks [' ', '\n'] := by simp [Blanks]
  have hwhole : IsWhole ('9' :: "223372036854775808".toList) :=
    .digits (by decide) (by decide) (List.all_eq_true.mp rfl)
  have hnumber := IsNumber.mk .minus hwhole .none .none
  have hkept := (normalize_integer hblanks.1 hnumber .negated hblanks.2).1
  exact hkept.mpr ⟨by decide, by decide, by decide⟩

end HttpEcho.Json
