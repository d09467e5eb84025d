import HttpEcho.Text.Buffer
import HttpEcho.Text.Utf8
import Mathlib.Tactic.IntervalCases

/-! Encoding and decoding of texts.

Octets that encode a text decode to it, exactly (`decode?_encode`), and so also lossily
(`decodeLossy_encode`). Characters below U+0080 are octets of their own on both sides: such an
octet is in an encoded text only for its character (`mem_encode_iff`), and such a character is in
a decoded text only for its octet (`octet_of_mem_decodeLossy`). -/
namespace HttpEcho.Utf8

/-! ### Encoding -/

@[simp] theorem encode_nil : encode [] = [] := rfl

@[simp] theorem encode_cons (c : Char) (text : List Char) :
    encode (c :: text) = String.utf8EncodeChar c ++ encode text := rfl

@[simp] theorem encode_append (a b : List Char) : encode (a ++ b) = encode a ++ encode b :=
  List.flatMap_append ..

theorem toList_text (out : Buffer) (text : List Char) :
    (out.text text).toList = out.toList ++ encode text :=
  Buffer.toList_text out text

theorem toNat_ofNat {n : Nat} (h : n < 0x100) : (UInt8.ofNat n).toNat = n := by
  rw [UInt8.toNat_ofNat']
  exact Nat.mod_eq_of_lt h

theorem utf8EncodeChar_of_lt {c : Char} (h : c.toNat < 0x80) :
    String.utf8EncodeChar c = [UInt8.ofNat c.toNat] := by
  have hv : c.val.toNat ≤ 0x7F := Nat.le_of_lt_succ h
  rw [String.utf8EncodeChar, if_pos hv]
  rfl

theorem utf8EncodeChar_of_ge {c : Char} (h : 0x80 ≤ c.toNat) :
    ∀ b ∈ String.utf8EncodeChar c, 0x80 ≤ b := by
  have hv : ¬ c.val.toNat ≤ 0x7F := Nat.not_le.mpr h
  have hge : ∀ n, 0x80 ≤ n → n < 0x100 → (0x80 : UInt8) ≤ UInt8.ofNat n := by
    intro n hn hn'
    rw [UInt8.le_iff_toNat_le, toNat_ofNat hn']
    exact hn
  simp only [String.utf8EncodeChar, if_neg hv]
  split
  · simp only [List.forall_mem_cons, List.not_mem_nil, false_imp_iff, implies_true, and_true]
    exact ⟨hge _ (by omega) (by omega), hge _ (by omega) (by omega)⟩
  split
  · simp only [List.forall_mem_cons, List.not_mem_nil, false_imp_iff, implies_true, and_true]
    exact ⟨hge _ (by omega) (by omega), hge _ (by omega) (by omega), hge _ (by omega) (by omega)⟩
  · simp only [List.forall_mem_cons, List.not_mem_nil, false_imp_iff, implies_true, and_true]
    exact ⟨hge _ (by omega) (by omega), hge _ (by omega) (by omega), hge _ (by omega) (by omega),
      hge _ (by omega) (by omega)⟩

theorem mem_utf8EncodeChar_iff {c d : Char} (h : c.toNat < 0x80) :
    UInt8.ofNat c.toNat ∈ String.utf8EncodeChar d ↔ c = d := by
  have htoNat : (UInt8.ofNat c.toNat).toNat = c.toNat := toNat_ofNat (by omega)
  by_cases hd : d.toNat < 0x80
  · have hdtoNat : (UInt8.ofNat d.toNat).toNat = d.toNat := toNat_ofNat (by omega)
    rw [utf8EncodeChar_of_lt hd, List.mem_singleton]
    constructor
    · intro he
      apply Char.toNat_inj.mp
      rw [← htoNat, he, hdtoNat]
    · intro he
      subst he
      rfl
  · constructor
    · intro hm
      have hge := utf8EncodeChar_of_ge (Nat.le_of_not_lt hd) _ hm
      rw [UInt8.le_iff_toNat_le, htoNat] at hge
      exact absurd h (Nat.not_lt.mpr hge)
    · intro he
      subst he
      exact absurd h hd

/-- An octet below 0x80 is in an encoded text only for its character. -/
theorem mem_encode_iff {c : Char} (h : c.toNat < 0x80) {text : List Char} :
    UInt8.ofNat c.toNat ∈ encode text ↔ c ∈ text := by
  induction text with
  | nil => simp
  | cons d text ih =>
    rw [encode_cons, List.mem_append, List.mem_cons, mem_utf8EncodeChar_iff h]
    exact or_congr_right ih

/-! ### Decoding what was encoded -/

theorem lead_of_lt {n : Nat} (h : n < 0x80) :
    Lead.ofOctet (UInt8.ofNat n) = .character (Char.ofNat n) := by
  have htoNat : (UInt8.ofNat n).toNat = n := toNat_ofNat (by omega)
  unfold Lead.ofOctet
  rw [if_pos (by rw [UInt8.lt_iff_toNat_lt, htoNat]; exact h), htoNat]

/-- The first octet of two. -/
theorem lead_two {n : Nat} (h : 2 ≤ n) (h' : n < 0x20) :
    Lead.ofOctet (UInt8.ofNat (n + 0xC0)) = .opening ⟨n, 0x80, 0xBF, 0⟩ := by
  have htoNat : (UInt8.ofNat (n + 0xC0)).toNat = n + 0xC0 := toNat_ofNat (by omega)
  unfold Lead.ofOctet
  simp only [UInt8.lt_iff_toNat_lt, htoNat]
  rw [if_neg (by simp), if_neg (by simp; omega), if_pos (by simp; omega)]
  simp

/-- The first octet of three. -/
theorem lead_three {n : Nat} (h : n < 0x10) : Lead.ofOctet (UInt8.ofNat (n + 0xE0)) =
    .opening ⟨n, if n = 0 then 0xA0 else 0x80, if n = 0xD then 0x9F else 0xBF, 1⟩ := by
  interval_cases n <;> rfl

/-- The first octet of four. -/
theorem lead_four {n : Nat} (h : n < 5) : Lead.ofOctet (UInt8.ofNat (n + 0xF0)) =
    .opening ⟨n, if n = 0 then 0x90 else 0x80, if n = 4 then 0x8F else 0xBF, 2⟩ := by
  interval_cases n <;> rfl

/-- A further octet, of the bits `x`. -/
theorem push_further {bits after x : Nat} {low high : UInt8} {text : List Char} {exact : Bool}
    (hx : x < 0x40) (hlow : low.toNat ≤ x + 0x80) (hhigh : x + 0x80 ≤ high.toNat) :
    Decoder.push ⟨some ⟨bits, low, high, after⟩, text, exact⟩ (UInt8.ofNat (x + 0x80)) =
      match after with
      | 0 => ⟨none, Char.ofNat (bits * 64 + x) :: text, exact⟩
      | n + 1 => ⟨some ⟨bits * 64 + x, 0x80, 0xBF, n⟩, text, exact⟩ := by
  have htoNat : (UInt8.ofNat (x + 0x80)).toNat = x + 0x80 := toNat_ofNat (by omega)
  have hbits : x + 0x80 - 0x80 = x := by omega
  have hin : low ≤ UInt8.ofNat (x + 0x80) ∧ UInt8.ofNat (x + 0x80) ≤ high := by
    rw [UInt8.le_iff_toNat_le, UInt8.le_iff_toNat_le, htoNat]
    exact ⟨hlow, hhigh⟩
  cases after with
  | zero => simp only [Decoder.push, if_pos hin, htoNat, hbits]
  | succ n => simp only [Decoder.push, if_pos hin, htoNat, hbits]

theorem toNat_bounds (c : Char) : c.toNat < 0xD800 ∨ (0xDFFF < c.toNat ∧ c.toNat < 0x110000) :=
  c.valid

theorem begin_opening {b : UInt8} {p : Pending} (h : Lead.ofOctet b = .opening p)
    (text : List Char) (exact : Bool) :
    Decoder.push ⟨none, text, exact⟩ b = ⟨some p, text, exact⟩ := by
  simp only [Decoder.push, Decoder.begin, h]

theorem pushAll_utf8EncodeChar (c : Char) (text : List Char) (exact : Bool) :
    Decoder.pushAll ⟨none, text, exact⟩ (String.utf8EncodeChar c) = ⟨none, c :: text, exact⟩ := by
  have hc : Char.ofNat c.toNat = c := Char.ofNat_toNat c
  have hbounds := toNat_bounds c
  have hval : c.val.toNat = c.toNat := rfl
  unfold String.utf8EncodeChar Decoder.pushAll
  simp only [hval]
  by_cases h1 : c.toNat ≤ 0x7F
  · rw [if_pos h1, List.foldl_cons, List.foldl_nil]
    simp only [Decoder.push, Decoder.begin, lead_of_lt (Nat.lt_succ_of_le h1), hc]
  rw [if_neg h1]
  by_cases h2 : c.toNat ≤ 0x7FF
  · rw [if_pos h2, List.foldl_cons, List.foldl_cons, List.foldl_nil,
      begin_opening (lead_two (by omega) (by omega)),
      push_further (by omega) (by simp) (by simp; omega)]
    have hbits : c.toNat / 64 % 32 * 64 + c.toNat % 64 = c.toNat := by omega
    simp only [hbits, hc]
  rw [if_neg h2]
  by_cases h3 : c.toNat ≤ 0xFFFF
  · rw [if_pos h3, List.foldl_cons, List.foldl_cons, List.foldl_cons, List.foldl_nil,
      begin_opening (lead_three (by omega)),
      push_further (by omega) (by split <;> simp; omega) (by split <;> (simp; omega)),
      push_further (by omega) (by simp) (by simp; omega)]
    have hbits : (c.toNat / 4096 % 16 * 64 + c.toNat / 64 % 64) * 64 + c.toNat % 64 = c.toNat := by
      omega
    simp only [hbits, hc]
  · rw [if_neg h3, List.foldl_cons, List.foldl_cons, List.foldl_cons, List.foldl_cons,
      List.foldl_nil, begin_opening (lead_four (by omega)),
      push_further (by omega) (by split <;> simp; omega) (by split <;> (simp; omega)),
      push_further (by omega) (by simp) (by simp; omega),
      push_further (by omega) (by simp) (by simp; omega)]
    have hbits : ((c.toNat / 262144 % 8 * 64 + c.toNat / 4096 % 64) * 64 + c.toNat / 64 % 64) * 64 +
        c.toNat % 64 = c.toNat := by omega
    simp only [hbits, hc]

theorem pushAll_encode (text before : List Char) (exact : Bool) :
    Decoder.pushAll ⟨none, before, exact⟩ (encode text) = ⟨none, text.reverse ++ before, exact⟩ := by
  induction text generalizing before with
  | nil => rfl
  | cons c text ih =>
    rw [encode_cons, Decoder.pushAll_append, pushAll_utf8EncodeChar, ih, List.reverse_cons,
      List.append_assoc]
    rfl

/-- **Octets that encode a text are that text**, with nothing replaced. -/
theorem decode?_encode (text : List Char) : decode? (encode text) = some text := by
  unfold decode?
  rw [pushAll_encode]
  simp [Decoder.finish]

@[simp] theorem decodeLossy_encode (text : List Char) : decodeLossy (encode text) = text := by
  unfold decodeLossy
  rw [pushAll_encode]
  simp [Decoder.finish]

theorem encode_injective {a b : List Char} (h : encode a = encode b) : a = b := by
  rw [← decodeLossy_encode a, h, decodeLossy_encode]

/-! ### What a decoded text comes from -/

/-- What is known of a character that is being read: whatever its further octets are, it is none
below U+0080. -/
structure Pending.Wide (p : Pending) : Prop where
  low : 0x80 ≤ p.low.toNat
  bits : 0x80 ≤ (p.bits * 64 + (p.low.toNat - 0x80)) * 64 ^ p.after

/-- What a decoder has, after the octets `given`: the characters below U+0080 of its text are
octets among them. The number of no character stands for U+0000, which is left out. -/
structure Decoder.From (d : Decoder) (given : List UInt8) : Prop where
  pending : ∀ p, d.pending = some p → p.Wide
  text : ∀ c ∈ d.text, c.toNat < 0x80 → c ≠ '\x00' → UInt8.ofNat c.toNat ∈ given

theorem Pending.wide_of_low {bits after : Nat} {low high : UInt8} (hlow : 0x80 ≤ low.toNat)
    (hbits : 2 ≤ bits ∨ (0 < after ∧ (0 < bits ∨ 0x90 ≤ low.toNat))) :
    Pending.Wide ⟨bits, low, high, after⟩ := by
  refine ⟨hlow, ?_⟩
  rcases hbits with hbits | ⟨hafter, hbits⟩
  · have hpos : 0 < 64 ^ after := Nat.pow_pos (by decide)
    have hle : 0x80 ≤ bits * 64 + (low.toNat - 0x80) := by omega
    exact Nat.le_trans hle (Nat.le_mul_of_pos_right _ hpos)
  · obtain ⟨n, rfl⟩ := Nat.exists_eq_add_of_lt hafter
    have hpos : 0 < 64 ^ n := Nat.pow_pos (by decide)
    have hle : 0x80 ≤ (bits * 64 + (low.toNat - 0x80)) * 64 := by omega
    calc 0x80 ≤ (bits * 64 + (low.toNat - 0x80)) * 64 := hle
      _ ≤ (bits * 64 + (low.toNat - 0x80)) * 64 * 64 ^ n := Nat.le_mul_of_pos_right _ hpos
      _ = (bits * 64 + (low.toNat - 0x80)) * 64 ^ (0 + n + 1) := by
        rw [Nat.zero_add, Nat.pow_succ', Nat.mul_assoc]

theorem Pending.wide_further {bits n : Nat} (h : 0x80 ≤ bits * 64 ^ (n + 1)) :
    Pending.Wide ⟨bits, 0x80, 0xBF, n⟩ := by
  have hlow : (0x80 : UInt8).toNat = 0x80 := rfl
  refine ⟨Nat.le_of_eq hlow.symm, ?_⟩
  rw [Nat.pow_succ', ← Nat.mul_assoc] at h
  simp only [hlow, Nat.sub_self, Nat.add_zero]
  exact h

/-- The bits of a character that is being read, with an octet more. -/
theorem Pending.Wide.further {p : Pending} (hp : p.Wide) {b : UInt8} (hb : p.low ≤ b) :
    0x80 ≤ (p.bits * 64 + (b.toNat - 0x80)) * 64 ^ p.after := by
  have hle : p.low.toNat - 0x80 ≤ b.toNat - 0x80 :=
    Nat.sub_le_sub_right (UInt8.le_iff_toNat_le.mp hb) _
  exact Nat.le_trans hp.bits (Nat.mul_le_mul_right _ (Nat.add_le_add_left hle _))

/-- The octets that open a character, by how many follow: one, two or three. -/
theorem Lead.opening_cases {b : UInt8} {p : Pending} (h : Lead.ofOctet b = .opening p) :
    (0xC2 ≤ b ∧ b ≤ 0xDF ∧ p = ⟨b.toNat - 0xC0, 0x80, 0xBF, 0⟩) ∨
    (0xE0 ≤ b ∧ b ≤ 0xEF ∧ p = ⟨b.toNat - 0xE0, if b = 0xE0 then 0xA0 else 0x80,
      if b = 0xED then 0x9F else 0xBF, 1⟩) ∨
    (0xF0 ≤ b ∧ b ≤ 0xF4 ∧ p = ⟨b.toNat - 0xF0, if b = 0xF0 then 0x90 else 0x80,
      if b = 0xF4 then 0x8F else 0xBF, 2⟩) := by
  unfold Lead.ofOctet at h
  simp only [UInt8.le_iff_toNat_le, UInt8.lt_iff_toNat_lt, ← UInt8.toNat_inj,
    UInt8.reduceToNat] at h ⊢
  split_ifs at h with h1 h2 h3 h4 h5 h6 h7 h8 h9
  · obtain rfl := Lead.opening.inj h
    exact .inl ⟨by omega, by omega, rfl⟩
  · obtain rfl := Lead.opening.inj h
    exact .inr (.inl ⟨by omega, by omega, by simp [h4]⟩)
  · obtain rfl := Lead.opening.inj h
    exact .inr (.inl ⟨by omega, by omega, by simp [h5]⟩)
  · obtain rfl := Lead.opening.inj h
    exact .inr (.inl ⟨by omega, by omega, by simp [h4, h5]⟩)
  · obtain rfl := Lead.opening.inj h
    exact .inr (.inr ⟨by omega, by omega, by simp [h7]⟩)
  · obtain rfl := Lead.opening.inj h
    exact .inr (.inr ⟨by omega, by omega, by rw [if_neg h7, if_neg (by omega)]⟩)
  · obtain rfl := Lead.opening.inj h
    exact .inr (.inr ⟨by omega, by omega, by simp [h9]⟩)

theorem Lead.wide_of_opening {b : UInt8} {p : Pending} (h : Lead.ofOctet b = .opening p) :
    p.Wide := by
  have hcases := Lead.opening_cases h
  simp only [UInt8.le_iff_toNat_le, UInt8.reduceToNat] at hcases
  obtain ⟨hb, -, rfl⟩ | ⟨hb, -, rfl⟩ | ⟨hb, -, rfl⟩ := hcases
  · exact Pending.wide_of_low (by decide) (.inl (by omega))
  · by_cases hfirst : b = 0xE0
    · exact Pending.wide_of_low (by rw [if_pos hfirst]; decide)
        (.inr ⟨by decide, .inr (by rw [if_pos hfirst]; decide)⟩)
    · have hne : b.toNat ≠ 0xE0 := fun he => hfirst (UInt8.toNat_inj.mp he)
      exact Pending.wide_of_low (by rw [if_neg hfirst]; decide)
        (.inr ⟨by decide, .inl (by omega)⟩)
  · by_cases hfirst : b = 0xF0
    · exact Pending.wide_of_low (by rw [if_pos hfirst]; decide)
        (.inr ⟨by decide, .inr (by rw [if_pos hfirst]; decide)⟩)
    · have hne : b.toNat ≠ 0xF0 := fun he => hfirst (UInt8.toNat_inj.mp he)
      exact Pending.wide_of_low (by rw [if_neg hfirst]; decide)
        (.inr ⟨by decide, .inl (by omega)⟩)

theorem toNat_ofNat_of_valid {n : Nat} (h : n.isValidChar) : (Char.ofNat n).toNat = n := by
  rw [Char.ofNat, dif_pos h]
  rfl

theorem eq_zero_of_ofNat {n : Nat} (h : 0x80 ≤ n) (hlt : (Char.ofNat n).toNat < 0x80) :
    Char.ofNat n = '\x00' := by
  by_cases hvalid : n.isValidChar
  · rw [toNat_ofNat_of_valid hvalid] at hlt
    exact absurd h (Nat.not_le.mpr hlt)
  · rw [Char.ofNat, dif_neg hvalid]
    rfl

theorem Lead.lt_of_character {b : UInt8} {c : Char} (h : Lead.ofOctet b = .character c) :
    b < 0x80 := by
  by_contra hb
  unfold Lead.ofOctet at h
  rw [if_neg hb] at h
  split_ifs at h

theorem Lead.ge_of_no_character {b : UInt8} (h : ∀ c, Lead.ofOctet b ≠ .character c) : 0x80 ≤ b :=
  UInt8.not_lt.mp fun hb => h _ (if_pos hb)

theorem Lead.toNat_of_character {b : UInt8} {c : Char} (h : Lead.ofOctet b = .character c) :
    c.toNat = b.toNat := by
  have hb := Lead.lt_of_character h
  have hvalid : b.toNat.isValidChar := by
    rw [UInt8.lt_iff_toNat_lt] at hb
    exact Or.inl (Nat.lt_trans hb (by decide))
  unfold Lead.ofOctet at h
  rw [if_pos hb] at h
  cases h
  exact toNat_ofNat_of_valid hvalid

theorem Lead.octet_of_character {b : UInt8} {c : Char} (h : Lead.ofOctet b = .character c) :
    UInt8.ofNat c.toNat = b := by
  rw [Lead.toNat_of_character h, UInt8.ofNat_toNat]

theorem Decoder.From.empty : Decoder.From {} [] :=
  ⟨fun p hp => (by cases hp), fun c hc => (by cases hc)⟩

theorem Decoder.From.mono {d : Decoder} {given : List UInt8} (h : d.From given)
    (more : List UInt8) : d.From (given ++ more) :=
  ⟨h.pending, fun c hc hlt hne => List.mem_append_left _ (h.text c hc hlt hne)⟩

theorem Decoder.From.replace {d : Decoder} {given : List UInt8} (h : d.From given) :
    d.replace.From given := by
  refine ⟨fun p hp => (by cases hp), fun c hc hlt hne => ?_⟩
  rcases List.mem_cons.mp hc with rfl | hc
  · exact absurd hlt (by decide)
  · exact h.text c hc hlt hne

theorem Decoder.From.begin {d : Decoder} {given : List UInt8} (h : d.From given) (b : UInt8) :
    (d.begin b).From (given ++ [b]) := by
  unfold Decoder.begin
  cases hlead : Lead.ofOctet b with
  | character c =>
    refine ⟨fun p hp => (by cases hp), fun e he hlt hne => ?_⟩
    rcases List.mem_cons.mp he with rfl | he
    · rw [Lead.octet_of_character hlead]
      exact List.mem_append_right _ (List.mem_singleton_self b)
    · exact List.mem_append_left _ (h.text e he hlt hne)
  | opening p =>
    refine ⟨fun q hq => ?_, (h.mono [b]).text⟩
    cases hq
    exact Lead.wide_of_opening hlead
  | stray => exact (h.mono [b]).replace

theorem Decoder.From.push {d : Decoder} {given : List UInt8} (h : d.From given) (b : UInt8) :
    (d.push b).From (given ++ [b]) := by
  unfold Decoder.push
  cases hpending : d.pending with
  | none => exact h.begin b
  | some p =>
    have hp := h.pending p hpending
    by_cases hin : p.low ≤ b ∧ b ≤ p.high
    · have hbits := hp.further hin.1
      simp only [if_pos hin]
      generalize p.bits * 64 + (b.toNat - 0x80) = bits at hbits ⊢
      cases hafter : p.after with
      | zero =>
        rw [hafter, Nat.pow_zero, Nat.mul_one] at hbits
        refine ⟨fun q hq => (by cases hq), fun e he hlt hne => ?_⟩
        rcases List.mem_cons.mp he with rfl | he
        · exact absurd (eq_zero_of_ofNat hbits hlt) hne
        · exact List.mem_append_left _ (h.text e he hlt hne)
      | succ n =>
        rw [hafter] at hbits
        refine ⟨fun q hq => ?_, (h.mono [b]).text⟩
        obtain rfl := Option.some.inj hq
        exact Pending.wide_further hbits
    · simp only [if_neg hin]
      exact h.replace.begin b

theorem Decoder.From.pushAll {d : Decoder} {given : List UInt8} (h : d.From given)
    (octets : List UInt8) : (d.pushAll octets).From (given ++ octets) := by
  induction octets generalizing d given with
  | nil => rw [List.append_nil]; exact h
  | cons b octets ih =>
    rw [List.append_cons]
    exact ih (h.push b)

theorem Decoder.From.finish {d : Decoder} {given : List UInt8} (h : d.From given) :
    d.finish.From given := by
  unfold Decoder.finish
  by_cases hpending : d.pending.isSome
  · rw [if_pos hpending]
    exact h.replace
  · rw [if_neg hpending]
    exact h

/-- **Decoding makes up no character below U+0080**: each is an octet of what was decoded. -/
theorem octet_of_mem_decodeLossy {octets : List UInt8} {c : Char} (hc : c ∈ decodeLossy octets)
    (hlt : c.toNat < 0x80) (hne : c ≠ '\x00') : UInt8.ofNat c.toNat ∈ octets :=
  (Decoder.From.empty.pushAll octets).finish.text c (List.mem_reverse.mp hc) hlt hne

end HttpEcho.Utf8
