import HttpEcho.Proofs.Base64
import Mathlib.Data.List.Forall2
import Mathlib.Data.Nat.Bitwise

/-! The format of base64 texts.

`StandsFor` says what the format does, without a way to do it: the digits hold the bits of the
octets one after another, six at a time, and where the bits or the digits run out, zeros and padding
fill up. A text that stands for octets is the only one (`StandsFor.unique`), and it is the encoded
one (`standsFor_encode`). Decoding takes these texts and no others, so that encoding is a bijection
from octets to the texts of the format (`encode_bijective`). -/
namespace HttpEcho.Base64

/-! ### The alphabet -/

/-- The digits, from that of zero to that of sixty-three. -/
def alphabet : List Char :=
  "ABCDEFGHIJKLMNOPQRSTUVWXYZabcdefghijklmnopqrstuvwxyz0123456789-_".toList

/-- The character is the digit of the number. -/
def IsDigit (n : Nat) (c : Char) : Prop :=
  alphabet[n]? = some c

theorem isDigit_iff {n : Nat} {c : Char} : IsDigit n c ↔ n < 64 ∧ c = digit n := by
  have hall : ∀ n < 64, alphabet[n]? = some (digit n) := by decide
  constructor
  · intro h
    have hlt : n < 64 := (List.getElem?_eq_some_iff.mp h).1
    exact ⟨hlt, Option.some.inj (h.symm.trans (hall n hlt))⟩
  · rintro ⟨hlt, rfl⟩
    exact hall n hlt

/-- The characters that digits are. -/
def IsAlphabetic (c : Char) : Prop :=
  ('A' ≤ c ∧ c ≤ 'Z') ∨ ('a' ≤ c ∧ c ≤ 'z') ∨ ('0' ≤ c ∧ c ≤ '9') ∨ c = '-' ∨ c = '_'

instance (c : Char) : Decidable (IsAlphabetic c) :=
  inferInstanceAs (Decidable (_ ∨ _ ∨ _ ∨ _ ∨ _))

theorem isAlphabetic_digit {n : Nat} (h : n < 64) : IsAlphabetic (digit n) := by
  have hall : ∀ n < 64, IsAlphabetic (digit n) := by decide
  exact hall n h

theorem toNat_lt_of_value? {c : Char} {n : Nat} (h : value? c = some n) : c.toNat < 128 := by
  have hlt : ∀ d : Char, d.toNat < 128 → c ≤ d → c.toNat < 128 := fun d hd hle =>
    Nat.lt_of_le_of_lt hle hd
  unfold value? at h
  split_ifs at h with hupper hlower hdigit hminus hunder
  · exact hlt 'Z' (by decide) hupper.2
  · exact hlt 'z' (by decide) hlower.2
  · exact hlt '9' (by decide) hdigit.2
  · exact hlt '-' (by decide) (hminus ▸ Char.le_refl _)
  · exact hlt '_' (by decide) (hunder ▸ Char.le_refl _)

theorem digit_of_value? {c : Char} {n : Nat} (h : value? c = some n) : n < 64 ∧ c = digit n := by
  have hall : ∀ k < 128, ∀ n ∈ value? (Char.ofNat k), n < 64 ∧ Char.ofNat k = digit n := by decide
  have hc := hall c.toNat (toNat_lt_of_value? h) n
  rw [Char.ofNat_toNat] at hc
  exact hc h

/-! ### Bits -/

/-- The last bits of a number, the highest of them first. -/
def bits : (width n : Nat) → List Bool
  | 0, _ => []
  | w + 1, n => n.testBit w :: bits w n

@[simp] theorem length_bits (w n : Nat) : (bits w n).length = w := by
  induction w with
  | zero => rfl
  | succ w ih => rw [bits, List.length_cons, ih]

/-- The bits of a number with two parts are those of the parts. -/
theorem bits_append (v w : Nat) {x y : Nat} (h : y < 2 ^ w) :
    bits (v + w) (x * 2 ^ w + y) = bits v x ++ bits w y := by
  have hlow : ∀ u ≤ w, bits u (x * 2 ^ w + y) = bits u y := by
    intro u hu
    induction u with
    | zero => rfl
    | succ u ih =>
      rw [bits, bits, ih (by omega), Nat.mul_comm, Nat.testBit_two_pow_mul_add x h u,
        if_pos (by omega)]
  induction v with
  | zero =>
    rw [Nat.zero_add, hlow w (Nat.le_refl w)]
    rfl
  | succ v ih =>
    have hwidth : v + 1 + w = v + w + 1 := by omega
    rw [hwidth, bits, bits, ih, Nat.mul_comm, Nat.testBit_two_pow_mul_add x h (v + w),
      if_neg (by omega), Nat.add_sub_cancel]
    rfl

theorem bits_injective {w m n : Nat} (hm : m < 2 ^ w) (hn : n < 2 ^ w) (h : bits w m = bits w n) :
    m = n := by
  have hbit : ∀ u ≤ w, bits u m = bits u n → ∀ i < u, m.testBit i = n.testBit i := by
    intro u
    induction u with
    | zero => exact fun _ _ i hi => absurd hi (Nat.not_lt_zero i)
    | succ u ih =>
      intro hu heq i hi
      obtain ⟨hfirst, hrest⟩ := List.cons.inj heq
      rcases Nat.lt_succ_iff_lt_or_eq.mp hi with hi | rfl
      · exact ih (by omega) hrest i hi
      · exact hfirst
  refine Nat.eq_of_testBit_eq fun i => ?_
  by_cases hi : i < w
  · exact hbit w (Nat.le_refl w) h i hi
  · have hpow := Nat.pow_le_pow_right (Nat.succ_pos 1) (Nat.le_of_not_lt hi)
    rw [Nat.testBit_lt_two_pow (Nat.lt_of_lt_of_le hm hpow),
      Nat.testBit_lt_two_pow (Nat.lt_of_lt_of_le hn hpow)]

/-- The bits of octets, one octet after another. -/
def octetBits (octets : List UInt8) : List Bool :=
  octets.flatMap fun octet => bits 8 octet.toNat

@[simp] theorem octetBits_nil : octetBits [] = [] := rfl

@[simp] theorem octetBits_cons (octet : UInt8) (octets : List UInt8) :
    octetBits (octet :: octets) = bits 8 octet.toNat ++ octetBits octets :=
  List.flatMap_cons

theorem length_octetBits (octets : List UInt8) : (octetBits octets).length = 8 * octets.length := by
  induction octets with
  | nil => rfl
  | cons octet octets ih =>
    rw [octetBits_cons, List.length_append, length_bits, ih, List.length_cons]
    omega

theorem length_flatMap_bits (sextets : List Nat) :
    (sextets.flatMap (bits 6)).length = 6 * sextets.length := by
  induction sextets with
  | nil => rfl
  | cons sextet sextets ih =>
    rw [List.flatMap_cons, List.length_append, length_bits, ih, List.length_cons]
    omega

/-- Sextets are determined by their bits, as they are all of one width. -/
theorem flatMap_bits_injective {xs ys : List Nat} (hx : ∀ n ∈ xs, n < 64) (hy : ∀ n ∈ ys, n < 64)
    (h : xs.flatMap (bits 6) = ys.flatMap (bits 6)) : xs = ys := by
  induction xs generalizing ys with
  | nil =>
    have hlength := congrArg List.length h
    rw [length_flatMap_bits, length_flatMap_bits, List.length_nil] at hlength
    exact (List.length_eq_zero_iff.mp (by omega)).symm
  | cons x xs ih =>
    cases ys with
    | nil =>
      have hlength := congrArg List.length h
      rw [length_flatMap_bits, length_flatMap_bits, List.length_cons, List.length_nil] at hlength
      omega
    | cons y ys =>
      rw [List.forall_mem_cons] at hx hy
      rw [List.flatMap_cons, List.flatMap_cons] at h
      obtain ⟨hhead, htail⟩ :=
        List.append_inj h ((length_bits 6 x).trans (length_bits 6 y).symm)
      rw [bits_injective hx.1 hy.1 hhead, ih hx.2 hy.2 htail]

/-- The values of the digits of a group. -/
def sextetsOf (a b c : UInt8) : List Nat :=
  [a.toNat / 4, a.toNat % 4 * 16 + b.toNat / 16, b.toNat % 16 * 4 + c.toNat / 64, c.toNat % 64]

/-- Three octets, cut in four. -/
theorem flatMap_bits_sextetsOf (a b c : UInt8) :
    (sextetsOf a b c).flatMap (bits 6) = octetBits [a, b, c] := by
  have hb := b.toNat_lt
  have hc := c.toNat_lt
  have cut : ∀ (n v w : Nat), bits (v + w) n = bits v (n / 2 ^ w) ++ bits w (n % 2 ^ w) := by
    intro n v w
    rw [← bits_append v w (Nat.mod_lt n (Nat.two_pow_pos w)), Nat.div_add_mod']
  have hab : bits 6 (a.toNat % 4 * 16 + b.toNat / 16) =
      bits 2 (a.toNat % 4) ++ bits 4 (b.toNat / 16) := bits_append 2 4 (by omega)
  have hbc : bits 6 (b.toNat % 16 * 4 + c.toNat / 64) =
      bits 4 (b.toNat % 16) ++ bits 2 (c.toNat / 64) := bits_append 4 2 (by omega)
  simp only [sextetsOf, List.flatMap_cons, List.flatMap_nil, List.append_nil, octetBits_cons,
    octetBits_nil, hab, hbc, cut a.toNat 6 2, cut b.toNat 4 4, cut c.toNat 2 6, List.append_assoc]
  rfl

/-! ### The texts of the format -/

/-- The text stands for the octets: its digits hold their bits, and zeros up to the end of the last
digit; after them, padding completes the last four characters. -/
inductive StandsFor : List Char → List UInt8 → Prop
  | mk {octets : List UInt8} (sextets : List Nat) (digits : List Char) (filled padded : Nat)
    (hbits : sextets.flatMap (bits 6) = octetBits octets ++ List.replicate filled false)
    (hfilled : filled < 6)
    (hdigits : List.Forall₂ IsDigit sextets digits)
    (hpadded : padded < 4)
    (hlength : 4 ∣ digits.length + padded) :
    StandsFor (digits ++ List.replicate padded '=') octets

theorem lt_of_forall₂ {sextets : List Nat} {digits : List Char}
    (h : List.Forall₂ IsDigit sextets digits) :
    ∀ n ∈ sextets, n < 64 := by
  induction h with
  | nil => exact fun _ hn => absurd hn List.not_mem_nil
  | cons hhead _ ih =>
    exact List.forall_mem_cons.mpr ⟨(isDigit_iff.mp hhead).1, ih⟩

theorem eq_map_of_forall₂ {sextets : List Nat} {digits : List Char}
    (h : List.Forall₂ IsDigit sextets digits) :
    digits = sextets.map digit := by
  induction h with
  | nil => rfl
  | cons hhead _ ih => rw [List.map_cons, ← ih, (isDigit_iff.mp hhead).2]

/-- Octets have one text: their number settles that of the digits, the digits' bits the digits, and
the number of digits the padding. -/
theorem StandsFor.unique {x y : List Char} {octets : List UInt8} (hx : StandsFor x octets)
    (hy : StandsFor y octets) : x = y := by
  obtain ⟨sextets, digits, filled, padded, hbits, hfilled, hdigits, hpadded, hlength⟩ := hx
  obtain ⟨sextets', digits', filled', padded', hbits', hfilled', hdigits', hpadded', hlength'⟩ := hy
  have hcount := congrArg List.length hbits
  have hcount' := congrArg List.length hbits'
  rw [List.length_append, List.length_replicate, length_flatMap_bits, length_octetBits]
    at hcount hcount'
  obtain rfl : filled = filled' := by omega
  obtain rfl : sextets = sextets' :=
    flatMap_bits_injective (lt_of_forall₂ hdigits) (lt_of_forall₂ hdigits')
      (hbits.trans hbits'.symm)
  obtain rfl : digits = digits' := by rw [eq_map_of_forall₂ hdigits, eq_map_of_forall₂ hdigits']
  obtain rfl : padded = padded' := by omega
  rfl

/-- How long the text is follows from the octets, and with it that there are two paddings at most: a
digit alone would hold less than an octet. -/
theorem StandsFor.shape {text : List Char} {octets : List UInt8} (h : StandsFor text octets) :
    text.length = 4 * ((octets.length + 2) / 3) ∧ ∃ digits padded,
      text = digits ++ List.replicate padded '=' ∧ padded ≤ 2 ∧ ∀ c ∈ digits, IsAlphabetic c := by
  obtain ⟨sextets, digits, filled, padded, hbits, hfilled, hdigits, hpadded, hlength⟩ := h
  have hcount := congrArg List.length hbits
  rw [List.length_append, List.length_replicate, length_flatMap_bits, length_octetBits,
    hdigits.length_eq] at hcount
  refine ⟨?_, digits, padded, rfl, by omega, fun c hc => ?_⟩
  · rw [List.length_append, List.length_replicate]
    omega
  · rw [eq_map_of_forall₂ hdigits] at hc
    obtain ⟨n, hn, rfl⟩ := List.mem_map.mp hc
    exact isAlphabetic_digit (lt_of_forall₂ hdigits n hn)

/-! ### What is encoded -/

theorem forall₂_group (a b c : UInt8) :
    List.Forall₂ IsDigit (sextetsOf a b c) (group a b c) := by
  obtain ⟨h1, h2, h3, h4⟩ := sextets_lt a b c
  have hdigit : ∀ {n}, n < 64 → IsDigit n (digit n) := fun h => isDigit_iff.mpr ⟨h, rfl⟩
  exact .cons (hdigit h1) (.cons (hdigit h2) (.cons (hdigit h3) (.cons (hdigit h4) .nil)))

/-- **The encoded text stands for its octets.** -/
theorem standsFor_encode (octets : List UInt8) : StandsFor (encode octets) octets := by
  rw [encode_eq_chars]
  induction octets using chars.induct with
  | case1 a b c rest ih =>
    rw [chars]
    generalize chars rest = text at ih ⊢
    obtain ⟨sextets, digits, filled, padded, hbits, hfilled, hdigits, hpadded, hlength⟩ := ih
    rw [← List.append_assoc]
    refine .mk (_ ++ sextets) _ filled padded ?_ hfilled
      (List.rel_append (forall₂_group a b c) hdigits) hpadded ?_
    · rw [List.flatMap_append, flatMap_bits_sextetsOf, hbits]
      simp only [octetBits_cons, octetBits_nil, List.append_assoc, List.nil_append]
    · rw [List.length_append, Nat.add_assoc]
      exact Nat.dvd_add ⟨1, rfl⟩ hlength
  | case2 a b =>
    have hbits : ((sextetsOf a b 0).take 3).flatMap (bits 6) ++ bits 6 0 =
        octetBits [a, b] ++ List.replicate 2 false ++ bits 6 0 := flatMap_bits_sextetsOf a b 0
    exact .mk _ _ 2 1 (List.append_cancel_right hbits) (by decide)
      (List.forall₂_take 3 (forall₂_group a b 0)) (by decide) ⟨1, rfl⟩
  | case3 a =>
    have hbits : ((sextetsOf a 0 0).take 2).flatMap (bits 6) ++ bits 12 0 =
        octetBits [a] ++ List.replicate 4 false ++ bits 12 0 := flatMap_bits_sextetsOf a 0 0
    exact .mk _ _ 4 2 (List.append_cancel_right hbits) (by decide)
      (List.forall₂_take 2 (forall₂_group a 0 0)) (by decide) ⟨1, rfl⟩
  | case4 => exact .mk [] [] 0 0 rfl (by decide) .nil (by decide) ⟨0, rfl⟩

/-! ### What decoding takes -/

section Sextets

variable {p q r s : Nat}

theorem toNat_first (hp : p < 64) (hq : q < 64) : (first p q).toNat = p * 4 + q / 16 :=
  Nat.mod_eq_of_lt (by omega)

theorem toNat_second (hr : r < 64) : (second q r).toNat = q % 16 * 16 + r / 4 :=
  Nat.mod_eq_of_lt (by omega)

theorem toNat_third (hs : s < 64) : (third r s).toNat = r % 4 * 64 + s :=
  Nat.mod_eq_of_lt (by omega)

/-- The octets of four sextets are cut in these. -/
theorem group_first_second_third (hp : p < 64) (hq : q < 64) (hr : r < 64) (hs : s < 64) :
    group (first p q) (second q r) (third r s) = [digit p, digit q, digit r, digit s] := by
  have h1 : (p * 4 + q / 16) / 4 = p := by omega
  have h2 : (p * 4 + q / 16) % 4 * 16 + (q % 16 * 16 + r / 4) / 16 = q := by omega
  have h3 : (q % 16 * 16 + r / 4) % 16 * 4 + (r % 4 * 64 + s) / 64 = r := by omega
  have h4 : (r % 4 * 64 + s) % 64 = s := by omega
  rw [group, toNat_first hp hq, toNat_second hr, toNat_third hs, h1, h2, h3, h4]

end Sextets

/-- Only the text of octets decodes to them. -/
theorem eq_encode_of_decode? {text : List Char} {octets : List UInt8}
    (h : decode? text = some octets) : text = encode octets := by
  rw [encode_eq_chars]
  induction text using decode?.induct generalizing octets with
  | case1 =>
    obtain rfl : [] = octets := Option.some.inj h
    rfl
  | case2 a b =>
    simp only [decode?, Option.bind_eq_bind, Option.bind_eq_some_iff, Option.guard_eq_some'] at h
    obtain ⟨p, ha, q, hb, _, hfilled, h⟩ := h
    obtain rfl : [first p q] = octets := Option.some.inj h
    obtain ⟨hp, rfl⟩ := digit_of_value? ha
    obtain ⟨hq, rfl⟩ := digit_of_value? hb
    have hsecond : second q 0 = 0 := by rw [second, hfilled]; rfl
    have hgroup : group (first p q) (second q 0) 0 = _ :=
      group_first_second_third hp hq (by decide : 0 < 64) (by decide : 0 < 64)
    rw [hsecond] at hgroup
    rw [chars, hgroup]
    rfl
  | case3 a b c hpad =>
    rw [decode?.eq_3 _ _ _ hpad] at h
    simp only [Option.bind_eq_bind, Option.bind_eq_some_iff, Option.guard_eq_some'] at h
    obtain ⟨p, ha, q, hb, r, hc, _, hfilled, h⟩ := h
    obtain rfl : [first p q, second q r] = octets := Option.some.inj h
    obtain ⟨hp, rfl⟩ := digit_of_value? ha
    obtain ⟨hq, rfl⟩ := digit_of_value? hb
    obtain ⟨hr, rfl⟩ := digit_of_value? hc
    have hthird : third r 0 = 0 := by rw [third, hfilled]; rfl
    have hgroup := group_first_second_third hp hq hr (by decide : 0 < 64)
    rw [hthird] at hgroup
    rw [chars, hgroup]
    rfl
  | case4 a b c d rest hpair hpad ih =>
    rw [decode?.eq_4 _ _ _ _ _ hpair hpad] at h
    simp only [Option.bind_eq_bind, Option.bind_eq_some_iff] at h
    obtain ⟨p, ha, q, hb, r, hc, s, hd, others, hrest, h⟩ := h
    obtain rfl : first p q :: second q r :: third r s :: others = octets := Option.some.inj h
    obtain ⟨hp, rfl⟩ := digit_of_value? ha
    obtain ⟨hq, rfl⟩ := digit_of_value? hb
    obtain ⟨hr, rfl⟩ := digit_of_value? hc
    obtain ⟨hs, rfl⟩ := digit_of_value? hd
    rw [chars, group_first_second_third hp hq hr hs, ← ih hrest]
    rfl
  | case5 text hnil hone htwo hgroup =>
    rw [decode?.eq_5 text hnil hone htwo hgroup] at h
    cases h

theorem decode?_eq_some_iff {text : List Char} {octets : List UInt8} :
    decode? text = some octets ↔ text = encode octets :=
  ⟨eq_encode_of_decode?, fun h => h ▸ decode?_encode octets⟩

theorem decode?_eq_some_iff_standsFor {text : List Char} {octets : List UInt8} :
    decode? text = some octets ↔ StandsFor text octets := by
  rw [decode?_eq_some_iff]
  exact ⟨fun h => h ▸ standsFor_encode octets, fun h => h.unique (standsFor_encode octets)⟩

/-- **Encoding is a bijection onto the texts of the format.** -/
theorem encode_bijective :
    (∀ octets, (encode octets).length = 4 * ((octets.length + 2) / 3) ∧ ∃ digits padded,
      encode octets = digits ++ List.replicate padded '=' ∧ padded ≤ 2 ∧
        ∀ c ∈ digits, IsAlphabetic c) ∧
    ∀ text octets, (decode? text = some octets ↔ text = encode octets) ∧
      (decode? text = some octets ↔ StandsFor text octets) :=
  ⟨fun octets => (standsFor_encode octets).shape,
    fun _ _ => ⟨decode?_eq_some_iff, decode?_eq_some_iff_standsFor⟩⟩

end HttpEcho.Base64
