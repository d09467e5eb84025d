import HttpEcho.Proofs.Text.Utf8
import Mathlib.Data.String.Basic

/-! The order of texts is that of their octets.

UTF-8 keeps order (`encode_lt_encode_iff`): where two texts first differ in a character their octets
first differ too, and the lower character has the lower octet there. -/
namespace HttpEcho.Utf8

/-! ### Characters -/

/-- A number in an octet that begins a character, and below it six bits in each further one. -/
def spread (lead : Nat) : (further n : Nat) → List UInt8
  | 0, n => [UInt8.ofNat (n + lead)]
  | k + 1, n => spread lead k (n / 64) ++ [UInt8.ofNat (n % 64 + 0x80)]

theorem cons_lt_cons_of_toNat {m n : Nat} (h : m < n) (hn : n < 0x100) (x y : List UInt8) :
    UInt8.ofNat m :: x < UInt8.ofNat n :: y := by
  refine List.cons_lt_cons_iff.mpr (Or.inl ?_)
  rw [UInt8.lt_iff_toNat_lt, toNat_ofNat (h.trans hn), toNat_ofNat hn]
  exact h

/-- By induction on the further octets: numbers that agree above their last six bits have the same
octets but for the last, and others are in order above these bits already. -/
theorem spread_append_lt {lead k m n : Nat} (h : m < n) (hn : n / 64 ^ k + lead < 0x100)
    (x y : List UInt8) : spread lead k m ++ x < spread lead k n ++ y := by
  induction k generalizing m n x y with
  | zero =>
    rw [Nat.pow_zero, Nat.div_one] at hn
    exact cons_lt_cons_of_toNat (Nat.add_lt_add_right h lead) hn x y
  | succ k ih =>
    rw [spread, spread, List.append_assoc, List.append_assoc]
    by_cases hdiv : m / 64 < n / 64
    · refine ih hdiv ?_ _ _
      rwa [Nat.div_div_eq_div_mul, ← Nat.pow_succ']
    · have hsame : m / 64 = n / 64 := by omega
      rw [hsame]
      exact List.append_left_lt (cons_lt_cons_of_toNat (by omega) (by omega) _ _)

/-- The four sizes of a character. -/
inductive Sized (n : Nat) : List UInt8 → Prop
  | one : n < 0x80 → Sized n (spread 0 0 n)
  | two : 0x80 ≤ n → n < 0x800 → Sized n (spread 0xC0 1 n)
  | three : 0x800 ≤ n → n < 0x10000 → Sized n (spread 0xE0 2 n)
  | four : 0x10000 ≤ n → n < 0x110000 → Sized n (spread 0xF0 3 n)

theorem sized_utf8EncodeChar (c : Char) : Sized c.toNat (String.utf8EncodeChar c) := by
  have hbounds := toNat_bounds c
  have hval : c.val.toNat = c.toNat := rfl
  unfold String.utf8EncodeChar
  simp only [hval]
  split_ifs with h1 h2 h3
  · exact .one (by omega)
  · have hlead : c.toNat / 64 % 32 = c.toNat / 64 := by omega
    rw [hlead]
    exact .two (by omega) (by omega)
  · have hlead : c.toNat / 4096 % 16 = c.toNat / 64 / 64 := by omega
    rw [hlead]
    exact .three (by omega) (by omega)
  · have hlead : c.toNat / 262144 % 8 = c.toNat / 64 / 64 / 64 := by omega
    have hnext : c.toNat / 4096 = c.toNat / 64 / 64 := by omega
    rw [hlead, hnext]
    exact .four (by omega) (by omega)

/-- A longer character begins with a higher octet; characters of one size are in order as their
numbers are. -/
theorem Sized.append_lt {m n : Nat} {a b : List UInt8} (ha : Sized m a) (hb : Sized n b)
    (h : m < n) (x y : List UInt8) : a ++ x < b ++ y := by
  cases ha with
  | one hm =>
    cases hb with
    | one hn => exact spread_append_lt h (by omega) x y
    | two hn hn' => exact cons_lt_cons_of_toNat (by omega) (by omega) _ _
    | three hn hn' => exact cons_lt_cons_of_toNat (by omega) (by omega) _ _
    | four hn hn' => exact cons_lt_cons_of_toNat (by omega) (by omega) _ _
  | two hm hm' =>
    cases hb with
    | one hn => omega
    | two hn hn' => exact spread_append_lt h (by omega) x y
    | three hn hn' => exact cons_lt_cons_of_toNat (by omega) (by omega) _ _
    | four hn hn' => exact cons_lt_cons_of_toNat (by omega) (by omega) _ _
  | three hm hm' =>
    cases hb with
    | one hn => omega
    | two hn hn' => omega
    | three hn hn' => exact spread_append_lt h (by omega) x y
    | four hn hn' => exact cons_lt_cons_of_toNat (by omega) (by omega) _ _
  | four hm hm' =>
    cases hb with
    | one hn => omega
    | two hn hn' => omega
    | three hn hn' => omega
    | four hn hn' => exact spread_append_lt h (by omega) x y

/-! ### Texts -/

theorem encode_lt_of_lt {a b : List Char} (h : a < b) : encode a < encode b := by
  induction a generalizing b with
  | nil =>
    cases b with
    | nil => exact absurd h (List.lt_irrefl [])
    | cons d b =>
      obtain ⟨octet, octets, hoctets⟩ :=
        List.exists_cons_of_ne_nil (String.utf8EncodeChar_ne_nil (c := d))
      rw [encode_nil, encode_cons, hoctets]
      exact List.nil_lt_cons _ _
  | cons c a ih =>
    cases b with
    | nil => exact absurd h (List.not_lt_nil _)
    | cons d b =>
      rw [encode_cons, encode_cons]
      rcases List.cons_lt_cons_iff.mp h with hlt | ⟨rfl, hlt⟩
      · exact (sized_utf8EncodeChar c).append_lt (sized_utf8EncodeChar d) hlt _ _
      · exact List.append_left_lt (ih hlt)

/-- **UTF-8 keeps order.** -/
theorem encode_lt_encode_iff {a b : List Char} : encode a < encode b ↔ a < b := by
  refine ⟨fun h => ?_, encode_lt_of_lt⟩
  rcases lt_trichotomy a b with hlt | rfl | hgt
  · exact hlt
  · exact absurd h (List.lt_irrefl _)
  · exact absurd (encode_lt_of_lt hgt) (List.lt_asymm h)

theorem encode_toList_lt_iff {a b : String} : encode a.toList < encode b.toList ↔ a < b :=
  encode_lt_encode_iff.trans String.lt_iff_toList_lt.symm

end HttpEcho.Utf8
