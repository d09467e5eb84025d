import HttpEcho.Json.Writer
import HttpEcho.Proofs.Json.Magnitude
import HttpEcho.Proofs.Json.Meaning
import HttpEcho.Proofs.Number.Shortest

/-! What numbers are written as.

Every number is written as a numeral of the grammar (`Number.isNumber_text`), a binary64 number
whatever its magnitude is, and the numeral alone says how (`Number.text_numeral`). An integer is
written as its literal, so it is read back if it fits 64 bits (`Number.denotes_integer`). A binary64
number is written as the shortest decimal of its magnitude (`Number.magnitude_numeral`), so what is
written rounds to it (`Number.roundsTo_numeral`). That it is read back is not said: what is read is
not always what rounding gives. -/
namespace HttpEcho.Json

open Grammar

/-! ### Digits -/

theorem isDigit_toDigits (n : Nat) : ∀ c ∈ Nat.toDigits 10 n, c.isDigit :=
  (Unsigned.isDecimal_toDigits n).isDigit

theorem digits_toDigits (n : Nat) : Digits (Nat.toDigits 10 n) :=
  ⟨Nat.toDigits_ne_nil, isDigit_toDigits n⟩

theorem toDigits_eq_cons {n : Nat} (h : 0 < n) :
    ∃ c w, Nat.toDigits 10 n = c :: w ∧ c ≠ '0' := by
  obtain ⟨c, w, hw⟩ := List.exists_cons_of_ne_nil (Nat.toDigits_ne_nil (b := 10) (n := n))
  have hfirst := Unsigned.head?_toDigits_ne_zero h
  rw [hw] at hfirst
  exact ⟨c, w, hw, fun hzero => hfirst (congrArg some hzero)⟩

theorem isWhole_toDigits (n : Nat) : IsWhole (Nat.toDigits 10 n) := by
  by_cases hzero : n = 0
  · subst hzero
    exact .zero
  · obtain ⟨c, w, hw, hc⟩ := toDigits_eq_cons (Nat.pos_of_ne_zero hzero)
    have hdigits := isDigit_toDigits n
    rw [hw] at hdigits ⊢
    exact .digits (hdigits c List.mem_cons_self) hc fun d hd =>
      hdigits d (List.mem_cons_of_mem _ hd)

theorem digitsValue_toDigits (n : Nat) : digitsValue (Nat.toDigits 10 n) = n :=
  Nat.ofDigitChars_ten_toDigits

/-! ### Numerals -/

def signText (negative : Bool) : List Char :=
  if negative then ['-'] else []

def fractionText : Option (List Char) → List Char
  | none => []
  | some digits => '.' :: digits

def exponentText : Option Exponent → List Char
  | none => []
  | some e => 'e' :: (if e.negative then '-' else '+') :: e.digits

/-- A numeral as the writer spells it, with a sign in every exponent. -/
def Numeral.text (n : Numeral) : List Char :=
  signText n.negative ++ (n.whole ++ (fractionText n.fraction ++ exponentText n.exponent))

theorem isSign_signText (negative : Bool) : IsSign (signText negative) negative := by
  cases negative with
  | false => exact .none
  | true => exact .minus

theorem isFraction_fractionText {f : Option (List Char)} (h : ∀ w ∈ f, Digits w) :
    IsFraction (fractionText f) f := by
  cases f with
  | none => exact .none
  | some w => exact .digits (h w rfl)

theorem isExponent_exponentText {e : Option Exponent} (h : ∀ x ∈ e, Digits x.digits) :
    IsExponent (exponentText e) e := by
  cases e with
  | none => exact .none
  | some x =>
    obtain ⟨negative, digits⟩ := x
    cases negative with
    | false => exact .plus (.inl rfl) (h _ rfl)
    | true => exact .minus (.inl rfl) (h _ rfl)

theorem Numeral.isNumber_text {n : Numeral} (hwhole : IsWhole n.whole)
    (hfraction : ∀ w ∈ n.fraction, Digits w) (hexponent : ∀ e ∈ n.exponent, Digits e.digits) :
    IsNumber n.text n :=
  .mk (isSign_signText n.negative) hwhole (isFraction_fractionText hfraction)
    (isExponent_exponentText hexponent)

/-- A numeral that is written as given characters. -/
def IsWrittenAs (n : Numeral) (w : List Char) : Prop :=
  n.text = w ∧ IsNumber w n

theorem isWrittenAs_fraction (negative : Bool) {w f : List Char} (hw : IsWhole w)
    (hf : Digits f) :
    IsWrittenAs ⟨negative, w, some f, none⟩ (signText negative ++ (w ++ '.' :: f)) := by
  have htext : Numeral.text ⟨negative, w, some f, none⟩ =
      signText negative ++ (w ++ '.' :: f) := by
    simp [Numeral.text, fractionText, exponentText]
  refine ⟨htext, htext ▸ Numeral.isNumber_text hw (fun x hx => ?_) fun x hx => (by cases hx)⟩
  cases hx
  exact hf

/-! ### Integers -/

/-- The numeral of an integer. -/
def literal (i : Int) : Numeral :=
  ⟨decide (i < 0), Nat.toDigits 10 i.natAbs, none, none⟩

theorem isWrittenAs_literal (i : Int) : IsWrittenAs (literal i) (Number.integer i).text := by
  have htext : (literal i).text = (Number.integer i).text := by
    simp [Numeral.text, literal, signText, fractionText, exponentText, Number.text]
  exact ⟨htext, htext ▸ Numeral.isNumber_text (isWhole_toDigits _) (fun x hx => (by cases hx))
    fun x hx => (by cases hx)⟩

/-- An integer that fits 64 bits is what its numeral denotes. -/
theorem denotes_literal {i : Int} (hlower : -2 ^ 63 ≤ i) (hupper : i ≤ 2 ^ 64 - 1) :
    (literal i).Denotes (.integer i) := by
  refine .exact ⟨?_, hlower, hupper, ?_⟩
  · have hvalue := digitsValue_toDigits i.natAbs
    unfold literal
    by_cases hneg : i < 0
    · have hliteral := @Numeral.IsLiteral.negated (Nat.toDigits 10 i.natAbs)
      have hi : -(i.natAbs : Int) = i := by omega
      rw [hvalue, hi] at hliteral
      rw [decide_eq_true hneg]
      exact hliteral
    · have hliteral := @Numeral.IsLiteral.plain (Nat.toDigits 10 i.natAbs)
      have hi : (i.natAbs : Int) = i := by omega
      rw [hvalue, hi] at hliteral
      rw [decide_eq_false hneg]
      exact hliteral
  · intro hzero
    obtain ⟨hneg, rfl⟩ := hzero
    cases hneg

/-! ### Binary64 numbers -/

/-- Significant digits as they come: a zero before the point, or digits that do not begin with
one. -/
inductive SignificantForm : Significant → Prop where
  | zero : SignificantForm ⟨['0'], 1⟩
  | digits {c w point} : c.isDigit → c ≠ '0' → (∀ d ∈ w, d.isDigit) →
      SignificantForm ⟨c :: w, point⟩

theorem SignificantForm.isDigit {s : Significant} (h : SignificantForm s) :
    Digits s.digits := by
  cases h with
  | zero => exact ⟨List.cons_ne_nil _ _, isDigit_toDigits 0⟩
  | digits hc _ hw => exact ⟨List.cons_ne_nil _ _, List.forall_mem_cons.mpr ⟨hc, hw⟩⟩

theorem significantForm (d : Decimal) : SignificantForm d.significant := by
  obtain ⟨n, e⟩ := d
  by_cases hzero : n = 0
  · subst hzero
    have hform : Decimal.significant ⟨0, e⟩ = ⟨['0'], 1⟩ := by simp [Decimal.significant]
    rw [hform]
    exact .zero
  · obtain ⟨c, w, hw, hc⟩ := toDigits_eq_cons (Nat.pos_of_ne_zero hzero)
    have hdigits := isDigit_toDigits n
    rw [hw] at hdigits
    -- The first digit is no zero, so dropping zeros from the other end stops there at the latest.
    have hkept : ((c :: w).reverse.dropWhile (· == '0')).reverse =
        c :: (w.reverse.dropWhile (· == '0')).reverse := by
      have hfirst : List.dropWhile (· == '0') [c] = [c] := by simp [hc]
      rw [List.reverse_cons, List.dropWhile_append, hfirst]
      by_cases hempty : (w.reverse.dropWhile (· == '0')).isEmpty
      · rw [if_pos hempty, List.isEmpty_iff.mp hempty]
        rfl
      · rw [if_neg hempty, List.reverse_append]
        rfl
    unfold Decimal.significant
    simp only [hw, hkept]
    refine .digits (hdigits c List.mem_cons_self) hc fun d hd => ?_
    have hmem := (List.dropWhile_suffix (· == '0')).subset (List.mem_reverse.mp hd)
    exact hdigits d (List.mem_cons_of_mem _ (List.mem_reverse.mp hmem))

theorem Grammar.Digits.append {v w : List Char} (hw : Digits w) (hv : ∀ c ∈ v, c.isDigit) :
    Digits (v ++ w) := by
  refine ⟨List.append_ne_nil_of_right_ne_nil v hw.1, fun c hc => ?_⟩
  rcases List.mem_append.mp hc with hc | hc
  · exact hv c hc
  · exact hw.2 c hc

theorem isDigit_replicate (n : Nat) : ∀ c ∈ List.replicate n '0', c.isDigit := by
  intro c hc
  rw [List.eq_of_mem_replicate hc]
  rfl

theorem magnitude_of_point_le (negative : Bool) {s : Significant} (hle : s.point ≤ 0) :
    Numeral.magnitude
      ⟨negative, ['0'], some (List.replicate (-s.point).toNat '0' ++ s.digits), none⟩ =
        s.value := by
  have hzeros : digitsValue (['0'] ++ (List.replicate (-s.point).toNat '0' ++ s.digits)) =
      digitsValue s.digits :=
    digitsValue_zeros_append ((-s.point).toNat + 1) s.digits
  have hexponent : -((List.replicate (-s.point).toNat '0' ++ s.digits).length : Int) =
      s.point - s.digits.length := by
    rw [List.length_append, List.length_replicate]
    omega
  rw [Numeral.magnitude_fraction, hzeros, hexponent]
  rfl

theorem magnitude_of_length_le (negative : Bool) {s : Significant}
    (hlong : s.digits.length ≤ s.point) : Numeral.magnitude
      ⟨negative, s.digits ++ List.replicate (s.point.toNat - s.digits.length) '0', some ['0'],
        none⟩ = s.value := by
  have hexponent : ((s.point.toNat - s.digits.length : Nat) : Int) = s.point - s.digits.length := by
    omega
  have hdigits : digitsValue
      (s.digits ++ List.replicate (s.point.toNat - s.digits.length) '0' ++ ['0']) =
        digitsValue s.digits * 10 ^ (s.point.toNat - s.digits.length) * 10 :=
    (digitsValue_append_zeros _ 1).trans (congrArg (· * 10 ^ 1) (digitsValue_append_zeros _ _))
  rw [Numeral.magnitude_fraction, hdigits, Nat.cast_mul, Nat.cast_mul, Nat.cast_pow, Nat.cast_ofNat,
    ← zpow_natCast, hexponent]
  exact mul_inv_cancel_right₀ (by norm_num) _

theorem magnitude_of_point_lt (negative : Bool) {s : Significant} (hpos : 0 < s.point)
    (hlt : s.point < s.digits.length) : Numeral.magnitude
      ⟨negative, s.digits.take s.point.toNat, some (s.digits.drop s.point.toNat), none⟩ =
        s.value := by
  have hexponent : -((s.digits.drop s.point.toNat).length : Int) = s.point - s.digits.length := by
    rw [List.length_drop]
    omega
  rw [Numeral.magnitude_fraction, List.take_append_drop, hexponent]
  rfl

theorem SignificantForm.isWrittenAs_positional {s : Significant} (h : SignificantForm s)
    (negative : Bool) : ∃ n, IsWrittenAs n (signText negative ++ s.positional) ∧
      n.negative = negative ∧ n.magnitude = s.value := by
  have hdigits := h.isDigit
  unfold Significant.positional
  by_cases hle : s.point ≤ 0
  · rw [if_pos hle]
    exact ⟨_, isWrittenAs_fraction negative .zero (hdigits.append (isDigit_replicate _)), rfl,
      magnitude_of_point_le negative hle⟩
  rw [if_neg hle]
  by_cases hlong : (s.digits.length : Int) ≤ s.point
  · rw [if_pos hlong]
    refine ⟨_, isWrittenAs_fraction negative ?_ (digits_toDigits 0), rfl,
      magnitude_of_length_le negative hlong⟩
    cases h with
    | zero => exact .zero
    | digits hc hne hw =>
      refine .digits hc hne fun d hd => ?_
      rcases List.mem_append.mp hd with hd | hd
      · exact hw d hd
      · exact isDigit_replicate _ d hd
  · rw [if_neg hlong]
    have hdrop : s.digits.drop s.point.toNat ≠ [] := by
      intro hnil
      rw [List.drop_eq_nil_iff] at hnil
      omega
    refine ⟨_, isWrittenAs_fraction negative ?_
      ⟨hdrop, fun c hc => hdigits.2 c (List.mem_of_mem_drop hc)⟩, rfl,
      magnitude_of_point_lt negative (Int.not_le.mp hle) (Int.not_le.mp hlong)⟩
    cases h with
    | zero => exact absurd (Int.le_refl 1) hlong
    | @digits c w point hc hne hw =>
      have hpoint : point.toNat ≠ 0 := fun hzero => hle (Int.toNat_eq_zero.mp hzero)
      obtain ⟨n, hn⟩ := Nat.exists_eq_succ_of_ne_zero hpoint
      rw [hn, List.take_succ_cons]
      exact .digits hc hne fun d hd => hw d (List.mem_of_mem_take hd)

theorem isWhole_singleton {c : Char} (h : c.isDigit) : IsWhole [c] := by
  by_cases hzero : c = '0'
  · subst hzero
    exact .zero
  · exact .digits h hzero fun d hd => (by cases hd)

theorem magnitude_scientific (negative : Bool) (c : Char) (w : List Char) (fraction)
    (hfraction : fraction.getD [] = w) (point : Int) :
    Numeral.magnitude ⟨negative, [c], fraction,
      some ⟨decide (point - 1 < 0), Nat.toDigits 10 (point - 1).natAbs⟩⟩ =
        Significant.value ⟨c :: w, point⟩ := by
  have hpower : (if decide (point - 1 < 0) = true then -((point - 1).natAbs : Int)
      else (point - 1).natAbs) = point - 1 := by
    split
    · next hneg =>
      have hneg := of_decide_eq_true hneg
      omega
    · next hnonneg =>
      have hnonneg := of_decide_eq_false (Bool.eq_false_of_not_eq_true hnonneg)
      omega
  have hexponent : point - 1 - w.length = point - (c :: w).length := by
    rw [List.length_cons]
    omega
  unfold Numeral.magnitude Numeral.power Numeral.digits Numeral.decimals
  dsimp only
  rw [digitsValue_toDigits, hpower, hfraction, hexponent]
  rfl

theorem SignificantForm.isWrittenAs_scientific {s : Significant} (h : SignificantForm s)
    (negative : Bool) : ∃ n, IsWrittenAs n (signText negative ++ s.scientific) ∧
      n.negative = negative ∧ n.magnitude = s.value := by
  have hdigits := h.isDigit
  obtain ⟨digits, point⟩ := s
  obtain ⟨e, he⟩ : ∃ e : Exponent,
      e = ⟨decide (point - 1 < 0), Nat.toDigits 10 (point - 1).natAbs⟩ := ⟨_, rfl⟩
  have hexponent : ∀ x ∈ some e, Digits x.digits := by
    intro x hx
    cases hx
    rw [he]
    exact digits_toDigits _
  match digits, hdigits with
  | [], hdigits => exact absurd rfl hdigits.1
  | [c], hdigits =>
    have hwhole := isWhole_singleton (hdigits.2 c List.mem_cons_self)
    have htext : Numeral.text ⟨negative, [c], none, some e⟩ =
        signText negative ++ Significant.scientific ⟨[c], point⟩ := by
      simp [Numeral.text, fractionText, exponentText, Significant.scientific, he]
    refine ⟨_, ⟨htext, htext ▸ Numeral.isNumber_text hwhole (fun x hx => (by cases hx)) hexponent⟩,
      rfl, ?_⟩
    rw [he]
    exact magnitude_scientific negative c [] none rfl point
  | c :: d :: r, hdigits =>
    have hwhole := isWhole_singleton (hdigits.2 c List.mem_cons_self)
    have hfraction : ∀ w ∈ some (d :: r), Digits w := by
      intro w hw
      cases hw
      exact ⟨List.cons_ne_nil d r, fun x hx => hdigits.2 x (List.mem_cons_of_mem c hx)⟩
    have htext : Numeral.text ⟨negative, [c], some (d :: r), some e⟩ =
        signText negative ++ Significant.scientific ⟨c :: d :: r, point⟩ := by
      simp [Numeral.text, fractionText, exponentText, Significant.scientific, he]
    refine ⟨_, ⟨htext, htext ▸ Numeral.isNumber_text hwhole hfraction hexponent⟩, rfl, ?_⟩
    rw [he]
    exact magnitude_scientific negative c (d :: r) (some (d :: r)) rfl point

/-! ### Numbers -/

theorem exists_isWrittenAs_real (x : Binary64) : ∃ n, IsWrittenAs n (Number.real x).text ∧
    n.negative = x.negative ∧ n.magnitude = (Binary64.shortest .toEven x.units).value := by
  have hform := significantForm (Binary64.shortest .toEven x.units)
  rw [← Decimal.value_significant]
  generalize hs : (Binary64.shortest .toEven x.units).significant = s at hform
  have htext : (Number.real x).text = signText x.negative ++
      if -4 ≤ s.point ∧ s.point ≤ 16 then s.positional else s.scientific := by
    rw [← hs]
    rfl
  rw [htext]
  by_cases hplace : -4 ≤ s.point ∧ s.point ≤ 16
  · rw [if_pos hplace]
    exact hform.isWrittenAs_positional x.negative
  · rw [if_neg hplace]
    exact hform.isWrittenAs_scientific x.negative

theorem Number.exists_isWrittenAs (x : Number) : ∃ n, IsWrittenAs n x.text := by
  cases x with
  | integer i => exact ⟨_, isWrittenAs_literal i⟩
  | real x =>
    obtain ⟨n, hn, -⟩ := exists_isWrittenAs_real x
    exact ⟨n, hn⟩

/-- The numeral that a number is written as. -/
def Number.numeral (x : Number) : Numeral :=
  (Numeral.ofChars? x.text).getD ⟨false, [], none, none⟩

theorem IsWrittenAs.numeral_eq {n : Numeral} {x : Number} (h : IsWrittenAs n x.text) :
    x.numeral = n := by
  unfold Number.numeral
  rw [Numeral.ofChars?_eq_some_iff.mpr h.2]
  rfl

/-- **A number is written as a numeral** of the grammar. -/
theorem Number.isNumber_text (x : Number) : IsNumber x.text x.numeral := by
  obtain ⟨n, hn⟩ := x.exists_isWrittenAs
  rw [hn.numeral_eq]
  exact hn.2

theorem Number.text_numeral (x : Number) : x.numeral.text = x.text := by
  obtain ⟨n, hn⟩ := x.exists_isWrittenAs
  rw [hn.numeral_eq]
  exact hn.1

/-- An integer that fits 64 bits is what it is written as. -/
theorem Number.denotes_integer {i : Int} (hlower : -2 ^ 63 ≤ i) (hupper : i ≤ 2 ^ 64 - 1) :
    (Number.integer i).numeral.Denotes (.integer i) := by
  rw [(isWrittenAs_literal i).numeral_eq]
  exact denotes_literal hlower hupper

/-- **A binary64 number is written as the shortest decimal** of its magnitude, with its sign. -/
theorem Number.magnitude_numeral (x : Binary64) : (Number.real x).numeral.negative = x.negative ∧
    (Number.real x).numeral.magnitude = (Binary64.shortest .toEven x.units).value := by
  obtain ⟨n, hn, hspells⟩ := exists_isWrittenAs_real x
  rw [hn.numeral_eq]
  exact hspells

/-- What is written rounds to the number, if there is such a number. -/
theorem Number.roundsTo_numeral {x : Binary64} (hfloat : Binary64.IsFloat x.units)
    (hlimit : x.units < Binary64.unitsLimit) :
    Binary64.RoundsTo ((Number.real x).numeral.magnitude * Binary64.unitsPerOne) x.units := by
  rw [(Number.magnitude_numeral x).2]
  exact Binary64.readsBack_shortest .toEven hfloat hlimit

end HttpEcho.Json
