import HttpEcho.Base64
import Mathlib.Data.Option.Basic

/-! Base64 both ways.

Decoding takes exactly what encoding writes back to the octets (`decode?_encode`), so no two
sequences of octets are written alike. What is written is made of the alphabet and the padding, and
of nothing that would break a line (`mem_encode`). -/
namespace HttpEcho.Base64

/-! ### The alphabet -/

theorem value?_digit {n : Nat} (h : n < 64) : value? (digit n) = some n := by
  have hall : ∀ n < 64, value? (digit n) = some n := by decide
  exact hall n h

/-- The padding is no digit. -/
theorem digit_ne_pad {n : Nat} (h : n < 64) : digit n ≠ '=' := by
  intro he
  have hvalue := value?_digit h
  rw [he] at hvalue
  cases hvalue

/-! ### The text of octets, without an accumulator -/

/-- The base64 text of octets, group by group. -/
def chars : List UInt8 → List Char
  | a :: b :: c :: rest => group a b c ++ chars rest
  | [a, b] => (group a b 0).take 3 ++ ['=']
  | [a] => (group a 0 0).take 2 ++ ['=', '=']
  | [] => []

theorem encodeOnto_eq (written : List Char) (octets : List UInt8) :
    encodeOnto written octets = (chars octets).reverse ++ written := by
  induction octets using chars.induct generalizing written with
  | case1 a b c rest ih =>
    rw [encodeOnto, ih, chars, List.reverse_append, List.append_assoc]
  | case2 a b => rfl
  | case3 a => rfl
  | case4 => rfl

theorem encode_eq_chars (octets : List UInt8) : encode octets = chars octets := by
  rw [encode, encodeOnto_eq, List.append_nil, List.reverse_reverse]

/-! ### Decoding -/

section Octets

variable (a b c : UInt8)

theorem sextets_lt : a.toNat / 4 < 64 ∧ a.toNat % 4 * 16 + b.toNat / 16 < 64 ∧
    b.toNat % 16 * 4 + c.toNat / 64 < 64 ∧ c.toNat % 64 < 64 := by
  have ha := a.toNat_lt
  have hb := b.toNat_lt
  have hc := c.toNat_lt
  omega

theorem first_eq : first (a.toNat / 4) (a.toNat % 4 * 16 + b.toNat / 16) = a := by
  have hb := b.toNat_lt
  have hbits : a.toNat / 4 * 4 + (a.toNat % 4 * 16 + b.toNat / 16) / 16 = a.toNat := by omega
  rw [first, hbits, UInt8.ofNat_toNat]

theorem second_eq :
    second (a.toNat % 4 * 16 + b.toNat / 16) (b.toNat % 16 * 4 + c.toNat / 64) = b := by
  have hb := b.toNat_lt
  have hc := c.toNat_lt
  have hbits : (a.toNat % 4 * 16 + b.toNat / 16) % 16 * 16 +
      (b.toNat % 16 * 4 + c.toNat / 64) / 4 = b.toNat := by omega
  rw [second, hbits, UInt8.ofNat_toNat]

theorem third_eq : third (b.toNat % 16 * 4 + c.toNat / 64) (c.toNat % 64) = c := by
  have hc := c.toNat_lt
  have hbits : (b.toNat % 16 * 4 + c.toNat / 64) % 4 * 64 + c.toNat % 64 = c.toNat := by omega
  rw [third, hbits, UInt8.ofNat_toNat]

end Octets

theorem decode?_group (a b c : UInt8) (rest : List Char) :
    decode? (group a b c ++ rest) = (decode? rest).map fun octets => a :: b :: c :: octets := by
  obtain ⟨h1, h2, h3, h4⟩ := sextets_lt a b c
  have hpad := digit_ne_pad h4
  simp only [group, List.cons_append, List.nil_append]
  rw [decode?.eq_4 _ _ _ _ _ (fun _ hd _ => hpad hd) (fun hd _ => hpad hd), value?_digit h1,
    value?_digit h2, value?_digit h3, value?_digit h4]
  simp only [Option.bind_eq_bind, Option.bind_some, first_eq, second_eq, third_eq]
  cases decode? rest <;> rfl

theorem decode?_two (a b : UInt8) :
    decode? ((group a b 0).take 3 ++ ['=']) = some [a, b] := by
  obtain ⟨h1, h2, h3, -⟩ := sextets_lt a b 0
  have hpad := digit_ne_pad h3
  have hfilled : (b.toNat % 16 * 4 + (0 : UInt8).toNat / 64) % 4 = 0 := by
    have hzero : (0 : UInt8).toNat = 0 := rfl
    omega
  show decode? [_, _, _, '='] = _
  rw [decode?.eq_3 _ _ _ hpad, value?_digit h1, value?_digit h2, value?_digit h3]
  simp only [Option.bind_eq_bind, Option.bind_some, first_eq, second_eq]
  rw [(Option.guard_eq_some' ()).mpr hfilled]
  rfl

theorem decode?_one (a : UInt8) : decode? ((group a 0 0).take 2 ++ ['=', '=']) = some [a] := by
  obtain ⟨h1, h2, -, -⟩ := sextets_lt a 0 0
  have hfilled : (a.toNat % 4 * 16 + (0 : UInt8).toNat / 16) % 16 = 0 := by
    have hzero : (0 : UInt8).toNat = 0 := rfl
    omega
  show decode? [_, _, '=', '='] = _
  rw [decode?, value?_digit h1, value?_digit h2]
  simp only [Option.bind_eq_bind, Option.bind_some, first_eq]
  rw [(Option.guard_eq_some' ()).mpr hfilled]
  rfl

theorem decode?_chars (octets : List UInt8) : decode? (chars octets) = some octets := by
  induction octets using chars.induct with
  | case1 a b c rest ih =>
    rw [chars, decode?_group, ih]
    rfl
  | case2 a b => exact decode?_two a b
  | case3 a => exact decode?_one a
  | case4 => rfl

/-- **Decoding takes an encoded text back** to its octets. -/
theorem decode?_encode (octets : List UInt8) : decode? (encode octets) = some octets := by
  rw [encode_eq_chars, decode?_chars]

/-! ### What is written -/

theorem mem_group {a b c : UInt8} {x : Char} (h : x ∈ group a b c) : ∃ n < 64, x = digit n := by
  obtain ⟨h1, h2, h3, h4⟩ := sextets_lt a b c
  simp only [group, List.mem_cons, List.not_mem_nil, or_false] at h
  rcases h with rfl | rfl | rfl | rfl
  · exact ⟨_, h1, rfl⟩
  · exact ⟨_, h2, rfl⟩
  · exact ⟨_, h3, rfl⟩
  · exact ⟨_, h4, rfl⟩

/-- An encoded text has digits and padding, and nothing else. -/
theorem mem_encode {octets : List UInt8} {x : Char} (h : x ∈ encode octets) :
    (∃ n < 64, x = digit n) ∨ x = '=' := by
  rw [encode_eq_chars] at h
  induction octets using chars.induct with
  | case1 a b c rest ih =>
    rw [chars, List.mem_append] at h
    rcases h with h | h
    · exact Or.inl (mem_group h)
    · exact ih h
  | case2 a b =>
    rcases List.mem_append.mp h with h | h
    · exact Or.inl (mem_group (List.mem_of_mem_take h))
    · exact Or.inr (List.mem_singleton.mp h)
  | case3 a =>
    rcases List.mem_append.mp h with h | h
    · exact Or.inl (mem_group (List.mem_of_mem_take h))
    · simp only [List.mem_cons, List.not_mem_nil, or_false, or_self] at h
      exact Or.inr h
  | case4 => cases h

/-- An encoded text is one line. -/
theorem newline_not_mem_encode (octets : List UInt8) : '\n' ∉ encode octets := by
  intro h
  rcases mem_encode h with ⟨n, hn, hdigit⟩ | hpad
  · have hvalue := value?_digit hn
    rw [← hdigit] at hvalue
    cases hvalue
  · cases hpad

end HttpEcho.Base64
