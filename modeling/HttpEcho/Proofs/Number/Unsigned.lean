import HttpEcho.Number.Unsigned
import Mathlib.Data.Nat.Notation

/-! What is read as an unsigned number.

`Denotes` is the syntax with its meaning, `parse_eq_ok_iff` the reader's agreement with it: a text
is read as a number exactly when it denotes one that is not too large. -/
namespace HttpEcho.Unsigned

/-- Decimal digits of a number, any number of zeros in front. -/
structure IsDecimal (digits : List Char) (n : Nat) : Prop where
  nonempty : digits ≠ []
  isDigit : ∀ c ∈ digits, c.isDigit = true
  value : Nat.ofDigitChars 10 digits 0 = n

/-- A text is a number. -/
inductive Denotes : List Char → Nat → Prop
  | plain {digits n} : IsDecimal digits n → Denotes digits n
  | plus {digits n} : IsDecimal digits n → Denotes ('+' :: digits) n

variable {text rest : List Char} {max n m : Nat}

theorem IsDecimal.not_plus : ¬ IsDecimal ('+' :: rest) n := fun h =>
  absurd (h.isDigit '+' List.mem_cons_self) (by decide)

/-! ### The reader -/

theorem le_ofDigitChars (text : List Char) (n : Nat) : n ≤ Nat.ofDigitChars 10 text n := by
  rw [Nat.ofDigitChars_eq_ofDigitChars_zero]
  have hpos : 0 < 10 ^ text.length := Nat.pow_pos (by decide)
  exact Nat.le_add_right_of_le (Nat.le_mul_of_pos_left n hpos)

theorem digits_eq_ok_iff (hn : n ≤ max) :
    digits max n text = .ok m ↔
      (∀ c ∈ text, c.isDigit = true) ∧ Nat.ofDigitChars 10 text n = m ∧ m ≤ max := by
  induction text generalizing n with
  | nil =>
    simp only [digits, Except.ok.injEq, Nat.ofDigitChars_nil, List.not_mem_nil, false_implies,
      implies_true, true_and]
    exact ⟨fun h => ⟨h, h ▸ hn⟩, fun h => h.1⟩
  | cons c rest ih =>
    rw [Nat.ofDigitChars_cons, List.forall_mem_cons]
    by_cases hc : c.isDigit = true
    · by_cases hle : 10 * n + (c.toNat - '0'.toNat) ≤ max
      · simp only [digits, hc, hle, if_true, true_and, ih hle]
      · simp only [digits, hc, hle, if_true, if_false, true_and, reduceCtorEq, false_iff]
        -- More digits only make the number larger.
        rintro ⟨-, rfl, hm⟩
        exact hle (Nat.le_trans (le_ofDigitChars rest _) hm)
    · simp [digits, hc]

theorem digits_zero_eq_ok_iff (hne : text ≠ []) :
    digits max 0 text = .ok n ↔ IsDecimal text n ∧ n ≤ max := by
  rw [digits_eq_ok_iff (Nat.zero_le max)]
  constructor
  · rintro ⟨hdigits, hvalue, hmax⟩
    exact ⟨⟨hne, hdigits, hvalue⟩, hmax⟩
  · rintro ⟨h, hmax⟩
    exact ⟨h.isDigit, h.value, hmax⟩

/-- **A text is read as a number when it denotes one** that is not too large. -/
theorem parse_eq_ok_iff : parse max text = .ok n ↔ Denotes text n ∧ n ≤ max := by
  constructor
  · intro h
    unfold parse at h
    split at h
    · cases h
    · cases h
    · rename_i rest hrest
      obtain ⟨hdecimal, hmax⟩ := (digits_zero_eq_ok_iff fun he => hrest (by rw [he])).mp h
      exact ⟨.plus hdecimal, hmax⟩
    · rename_i hne _ _
      obtain ⟨hdecimal, hmax⟩ := (digits_zero_eq_ok_iff hne).mp h
      exact ⟨.plain hdecimal, hmax⟩
  · rintro ⟨h | h, hmax⟩
    · unfold parse
      split
      · exact absurd rfl h.nonempty
      · exact absurd h IsDecimal.not_plus
      · exact absurd h IsDecimal.not_plus
      · exact (digits_zero_eq_ok_iff h.nonempty).mpr ⟨h, hmax⟩
    · obtain ⟨c, rest, rfl⟩ := List.exists_cons_of_ne_nil h.nonempty
      exact (digits_zero_eq_ok_iff h.nonempty).mpr ⟨h, hmax⟩

/-! ### The shortest digits -/

theorem toNat_of_isDigit {c : Char} (h : c.isDigit = true) : 48 ≤ c.toNat ∧ c.toNat ≤ 57 := by
  simpa [Char.isDigit, UInt32.le_iff_toNat_le] using h

theorem digitChar_of_isDigit {c : Char} (h : c.isDigit = true) :
    Nat.digitChar (c.toNat - '0'.toNat) = c ∧ c.toNat - '0'.toNat < 10 := by
  obtain ⟨hlower, hupper⟩ := toNat_of_isDigit h
  have hvalue : c.toNat - '0'.toNat = c.toNat - 48 := rfl
  have hlt : c.toNat - '0'.toNat < 10 := by omega
  refine ⟨Char.toNat_inj.mp ?_, hlt⟩
  rw [Nat.toNat_digitChar_of_lt_ten hlt]
  omega

/-- Digits after those of a number are those of the number with the digits appended. -/
theorem toDigits_append_digits (hn : 0 < n) (h : ∀ c ∈ text, c.isDigit = true) :
    Nat.toDigits 10 n ++ text = Nat.toDigits 10 (Nat.ofDigitChars 10 text n) := by
  induction text generalizing n with
  | nil => rw [List.append_nil, Nat.ofDigitChars_nil]
  | cons c rest ih =>
    rw [List.forall_mem_cons] at h
    obtain ⟨hchar, hlt⟩ := digitChar_of_isDigit h.1
    have hdigit : Nat.toDigits 10 n ++ [c] = Nat.toDigits 10 (10 * n + (c.toNat - '0'.toNat)) := by
      rw [← Nat.toDigits_append_toDigits (by decide) hn hlt, Nat.toDigits_of_lt_base hlt, hchar]
    rw [Nat.ofDigitChars_cons, ← ih (by omega) h.2, ← hdigit, List.append_assoc,
      List.singleton_append]

theorem isDecimal_toDigits (n : Nat) : IsDecimal (Nat.toDigits 10 n) n where
  nonempty := Nat.toDigits_ne_nil
  isDigit _ hc := Nat.isDigit_of_mem_toDigits (by decide) (by decide) hc
  value := Nat.ofDigitChars_ten_toDigits

/-- Zero alone begins with a zero. -/
theorem head?_toDigits_ne_zero (hn : 0 < n) : (Nat.toDigits 10 n).head? ≠ some '0' := by
  induction n using Nat.strongRecOn with
  | ind n ih =>
    rw [Nat.toDigits_eq_if (by decide)]
    by_cases hlt : n < 10
    · rw [if_pos hlt]
      exact fun hzero => Nat.ne_of_gt hn (Nat.digitChar_eq_zero.mp (Option.some.inj hzero))
    · rw [if_neg hlt]
      have hfirst := ih (n / 10) (by omega) (by omega)
      cases hdigits : Nat.toDigits 10 (n / 10) with
      | nil => exact absurd hdigits Nat.toDigits_ne_nil
      | cons c rest =>
        rw [hdigits] at hfirst
        exact hfirst

/-- Digits are the shortest of their number when no zero stands in front of others. -/
theorem IsDecimal.eq_toDigits_iff (h : IsDecimal text n) :
    text = Nat.toDigits 10 n ↔ (text.head? = some '0' → text = ['0']) := by
  constructor
  · rintro rfl hzero
    by_cases hn : n = 0
    · subst hn
      rfl
    · exact absurd hzero (head?_toDigits_ne_zero (Nat.pos_of_ne_zero hn))
  · intro hfirst
    obtain ⟨c, rest, rfl⟩ := List.exists_cons_of_ne_nil h.nonempty
    have hdigits := List.forall_mem_cons.mp h.isDigit
    obtain ⟨hchar, hlt⟩ := digitChar_of_isDigit hdigits.1
    by_cases hc : c = '0'
    · subst hc
      have hrest : rest = [] := List.cons_inj_right '0' |>.mp (hfirst rfl)
      subst hrest
      rw [← h.value]
      rfl
    · have hpos : 0 < c.toNat - '0'.toNat := by
        refine Nat.pos_of_ne_zero fun hzero => hc ?_
        rw [← hchar, hzero]
        rfl
      rw [← h.value, Nat.ofDigitChars_cons, Nat.mul_zero, Nat.zero_add,
        ← toDigits_append_digits hpos hdigits.2, Nat.toDigits_of_lt_base hlt, hchar,
        List.singleton_append]

/-- A number is as it is written when it has no plus, and no zero in front of other digits. -/
theorem Denotes.eq_toDigits_iff (h : Denotes text n) :
    text = Nat.toDigits 10 n ↔
      text.head? ≠ some '+' ∧ (text.head? = some '0' → text = ['0']) := by
  cases h with
  | plain h =>
    rw [h.eq_toDigits_iff]
    refine (and_iff_right ?_).symm
    intro hplus
    obtain ⟨rest, rfl⟩ := List.head?_eq_some_iff.mp hplus
    exact h.not_plus
  | plus h =>
    refine iff_of_false ?_ fun hplus => hplus.1 rfl
    intro heq
    have hdecimal := isDecimal_toDigits n
    rw [← heq] at hdecimal
    exact hdecimal.not_plus

end HttpEcho.Unsigned
