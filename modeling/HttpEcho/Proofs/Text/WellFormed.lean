import HttpEcho.Proofs.Text.Utf8

/-! Well-formed UTF-8.

`WellFormed` is the syntax of UTF-8: which octets may follow each other, without any decoder.
`wellFormed_iff` says that the octet sequences it admits are exactly those that encode a text. So
what is written by encoding is well-formed, and decoding leaves well-formed octets as they are and
no others (`encode_decodeLossy_eq_iff`). The exact decoder gives a text for these alone
(`decode?_eq_some_iff`). -/
namespace HttpEcho.Utf8

/-- An octet that is not the first of its character. -/
def IsFurther (b : UInt8) : Prop :=
  0x80 ≤ b ∧ b ≤ 0xBF

/-- The octets of one character. The narrowed second octets keep out overlong forms (E0, F0),
surrogates (ED) and what lies beyond the last character (F4). -/
inductive IsCharacter : List UInt8 → Prop
  | one {a} : a ≤ 0x7F → IsCharacter [a]
  | two {a b} : 0xC2 ≤ a → a ≤ 0xDF → IsFurther b → IsCharacter [a, b]
  | three {a b c} : 0xE0 ≤ a → a ≤ 0xEF → IsFurther b → (a = 0xE0 → 0xA0 ≤ b) →
      (a = 0xED → b ≤ 0x9F) → IsFurther c → IsCharacter [a, b, c]
  | four {a b c d} : 0xF0 ≤ a → a ≤ 0xF4 → IsFurther b → (a = 0xF0 → 0x90 ≤ b) →
      (a = 0xF4 → b ≤ 0x8F) → IsFurther c → IsFurther d → IsCharacter [a, b, c, d]

/-- Octets that are characters one after another. -/
inductive WellFormed : List UInt8 → Prop
  | nil : WellFormed []
  | cons {c rest} : IsCharacter c → WellFormed rest → WellFormed (c ++ rest)

/-! ### One character -/

theorem isFurther_ofNat (n : Nat) : IsFurther (UInt8.ofNat (n % 64 + 0x80)) := by
  have htoNat : (UInt8.ofNat (n % 64 + 0x80)).toNat = n % 64 + 0x80 := toNat_ofNat (by omega)
  unfold IsFurther
  rw [UInt8.le_iff_toNat_le, UInt8.le_iff_toNat_le, htoNat]
  simp
  omega

/-- The character of a number. -/
theorem exists_char {n : Nat} (h : n < 0xD800 ∨ (0xDFFF < n ∧ n < 0x110000)) :
    ∃ c : Char, c.val.toNat = n :=
  ⟨Char.ofNat n, toNat_ofNat_of_valid h⟩

theorem isCharacter_utf8EncodeChar (c : Char) : IsCharacter (String.utf8EncodeChar c) := by
  have hbounds := toNat_bounds c
  have hval : c.val.toNat = c.toNat := rfl
  unfold String.utf8EncodeChar
  simp only [hval]
  by_cases h1 : c.toNat ≤ 0x7F
  · rw [if_pos h1]
    refine .one ?_
    rw [UInt8.le_iff_toNat_le, toNat_ofNat (by omega)]
    exact h1
  rw [if_neg h1]
  by_cases h2 : c.toNat ≤ 0x7FF
  · have hfirst : (UInt8.ofNat (c.toNat / 64 % 32 + 0xC0)).toNat = c.toNat / 64 % 32 + 0xC0 :=
      toNat_ofNat (by omega)
    rw [if_pos h2]
    refine .two ?_ ?_ (isFurther_ofNat _)
    all_goals
      simp only [UInt8.le_iff_toNat_le, hfirst, UInt8.reduceToNat]
      omega
  have hsecond : ∀ n, (UInt8.ofNat (n % 64 + 0x80)).toNat = n % 64 + 0x80 :=
    fun n => toNat_ofNat (by omega)
  rw [if_neg h2]
  by_cases h3 : c.toNat ≤ 0xFFFF
  · have hfirst : (UInt8.ofNat (c.toNat / 4096 % 16 + 0xE0)).toNat = c.toNat / 4096 % 16 + 0xE0 :=
      toNat_ofNat (by omega)
    rw [if_pos h3]
    refine .three ?_ ?_ (isFurther_ofNat _) ?_ ?_ (isFurther_ofNat _)
    all_goals
      simp only [UInt8.le_iff_toNat_le, ← UInt8.toNat_inj, hfirst, hsecond, UInt8.reduceToNat]
      omega
  · have hfirst :
        (UInt8.ofNat (c.toNat / 262144 % 8 + 0xF0)).toNat = c.toNat / 262144 % 8 + 0xF0 :=
      toNat_ofNat (by omega)
    rw [if_neg h3]
    refine .four ?_ ?_ (isFurther_ofNat _) ?_ ?_ (isFurther_ofNat _) (isFurther_ofNat _)
    all_goals
      simp only [UInt8.le_iff_toNat_le, ← UInt8.toNat_inj, hfirst, hsecond, UInt8.reduceToNat]
      omega

theorem ofNat_eq {n : Nat} {b : UInt8} (h : n = b.toNat) : UInt8.ofNat n = b := by
  rw [h, UInt8.ofNat_toNat]

theorem IsCharacter.exists_char {octets : List UInt8} (h : IsCharacter octets) :
    ∃ c : Char, octets = String.utf8EncodeChar c := by
  cases h with
  | @one a ha =>
    simp only [UInt8.le_iff_toNat_le, UInt8.reduceToNat] at ha
    obtain ⟨c, hc⟩ := Utf8.exists_char (n := a.toNat) (by omega)
    refine ⟨c, ?_⟩
    simp only [String.utf8EncodeChar, hc]
    rw [if_pos (by omega), ofNat_eq rfl]
  | @two a b ha ha' hb =>
    simp only [IsFurther, UInt8.le_iff_toNat_le, UInt8.reduceToNat] at ha ha' hb
    obtain ⟨c, hc⟩ := Utf8.exists_char (n := (a.toNat - 0xC0) * 64 + (b.toNat - 0x80)) (by omega)
    refine ⟨c, ?_⟩
    simp only [String.utf8EncodeChar, hc]
    rw [if_neg (by omega), if_pos (by omega), ofNat_eq (b := a) (by omega),
      ofNat_eq (b := b) (by omega)]
  | @three a b c ha ha' hb hlow hhigh hc =>
    simp only [IsFurther, UInt8.le_iff_toNat_le, ← UInt8.toNat_inj, UInt8.reduceToNat]
      at ha ha' hb hlow hhigh hc
    obtain ⟨d, hd⟩ := Utf8.exists_char
      (n := ((a.toNat - 0xE0) * 64 + (b.toNat - 0x80)) * 64 + (c.toNat - 0x80)) (by omega)
    refine ⟨d, ?_⟩
    simp only [String.utf8EncodeChar, hd]
    rw [if_neg (by omega), if_neg (by omega), if_pos (by omega), ofNat_eq (b := a) (by omega),
      ofNat_eq (b := b) (by omega), ofNat_eq (b := c) (by omega)]
  | @four a b c d ha ha' hb hlow hhigh hc hd =>
    simp only [IsFurther, UInt8.le_iff_toNat_le, ← UInt8.toNat_inj, UInt8.reduceToNat]
      at ha ha' hb hlow hhigh hc hd
    obtain ⟨x, hx⟩ := Utf8.exists_char
      (n := (((a.toNat - 0xF0) * 64 + (b.toNat - 0x80)) * 64 + (c.toNat - 0x80)) * 64 +
        (d.toNat - 0x80)) (by omega)
    refine ⟨x, ?_⟩
    simp only [String.utf8EncodeChar, hx]
    rw [if_neg (by omega), if_neg (by omega), if_neg (by omega), ofNat_eq (b := a) (by omega),
      ofNat_eq (b := b) (by omega), ofNat_eq (b := c) (by omega), ofNat_eq (b := d) (by omega)]

theorem isCharacter_iff {octets : List UInt8} :
    IsCharacter octets ↔ ∃ c : Char, octets = String.utf8EncodeChar c := by
  constructor
  · exact IsCharacter.exists_char
  · rintro ⟨c, rfl⟩
    exact isCharacter_utf8EncodeChar c

/-! ### Texts -/

theorem wellFormed_encode (text : List Char) : WellFormed (encode text) := by
  induction text with
  | nil => exact .nil
  | cons c text ih => exact .cons (isCharacter_utf8EncodeChar c) ih

/-- **What is well-formed encodes a text**, and nothing else does. -/
theorem wellFormed_iff {octets : List UInt8} :
    WellFormed octets ↔ ∃ text, octets = encode text := by
  constructor
  · intro h
    induction h with
    | nil => exact ⟨[], rfl⟩
    | cons hc _ ih =>
      obtain ⟨c, rfl⟩ := isCharacter_iff.mp hc
      obtain ⟨text, rfl⟩ := ih
      exact ⟨c :: text, rfl⟩
  · rintro ⟨text, rfl⟩
    exact wellFormed_encode text

theorem WellFormed.append {a b : List UInt8} (ha : WellFormed a) (hb : WellFormed b) :
    WellFormed (a ++ b) := by
  induction ha with
  | nil => exact hb
  | cons hc _ ih =>
    rw [List.append_assoc]
    exact .cons hc ih

/-- Decoding leaves well-formed octets as they are, and no others. -/
theorem encode_decodeLossy_eq_iff {octets : List UInt8} :
    encode (decodeLossy octets) = octets ↔ WellFormed octets := by
  rw [wellFormed_iff]
  constructor
  · exact fun h => ⟨_, h.symm⟩
  · rintro ⟨text, rfl⟩
    rw [decodeLossy_encode]

instance (octets : List UInt8) : Decidable (WellFormed octets) :=
  decidable_of_iff _ encode_decodeLossy_eq_iff

-- A hyphen in two octets where one is enough, and half of a surrogate pair.
example : ¬ WellFormed [0xC0, 0xAD] ∧ ¬ WellFormed [0xED, 0xA0, 0x80] := by decide

/-! ### The exact decoder -/

/-- Octets lack the last `after + 1` of a character, of which the next one is in some bounds. -/
def Lacks (octets : List UInt8) (low high : UInt8) : Nat → Prop
  | 0 => ∀ b, low ≤ b → b ≤ high → IsCharacter (octets ++ [b])
  | n + 1 => ∀ b, low ≤ b → b ≤ high → Lacks (octets ++ [b]) 0x80 0xBF n

theorem lacks_of_opening {b : UInt8} {p : Pending} (h : Lead.ofOctet b = .opening p) :
    Lacks [b] p.low p.high p.after := by
  obtain ⟨hb, hb', rfl⟩ | ⟨hb, hb', rfl⟩ | ⟨hb, hb', rfl⟩ := Lead.opening_cases h
  · exact fun c hc hc' => .two hb hb' ⟨hc, hc'⟩
  · intro c hc hc' d hd hd'
    refine .three hb hb' ⟨UInt8.le_trans ?_ hc, UInt8.le_trans hc' ?_⟩ ?_ ?_ ⟨hd, hd'⟩
    · dsimp only; split <;> decide
    · dsimp only; split <;> decide
    · intro he
      simpa only [if_pos he] using hc
    · intro he
      simpa only [if_pos he] using hc'
  · intro c hc hc' d hd hd' e he he'
    refine .four hb hb' ⟨UInt8.le_trans ?_ hc, UInt8.le_trans hc' ?_⟩ ?_ ?_ ⟨hd, hd'⟩ ⟨he, he'⟩
    · dsimp only; split <;> decide
    · dsimp only; split <;> decide
    · intro he
      simpa only [if_pos he] using hc
    · intro he
      simpa only [if_pos he] using hc'

/-- What is pending comes from these octets. -/
structure Pending.Begun (p : Pending) (octets : List UInt8) : Prop where
  lacks : Lacks octets p.low p.high p.after
  reads : ∀ text exact, Decoder.pushAll ⟨none, text, exact⟩ octets = ⟨some p, text, exact⟩

/-- What an exact decoder has read: a text, and the beginning of a character if one is pending. -/
def Decoder.Reads (d : Decoder) (octets : List UInt8) : Prop :=
  ∃ begun, octets = encode d.text.reverse ++ begun ∧
    match d.pending with
    | none => begun = []
    | some p => p.Begun begun

theorem Decoder.Reads.empty : Decoder.Reads {} [] :=
  ⟨[], rfl, rfl⟩

theorem Decoder.Reads.begin {d : Decoder} {octets : List UInt8} {b : UInt8}
    (h : octets = encode d.text.reverse) (hexact : (d.begin b).exact = true) :
    (d.begin b).Reads (octets ++ [b]) := by
  unfold Decoder.begin at hexact ⊢
  cases hlead : Lead.ofOctet b with
  | character c =>
    have hlt : c.toNat < 0x80 := by
      have hb := UInt8.lt_iff_toNat_lt.mp (Lead.lt_of_character hlead)
      rwa [← Lead.toNat_of_character hlead] at hb
    have hc : encode [c] = [b] := by
      rw [encode, List.flatMap_singleton, utf8EncodeChar_of_lt hlt, Lead.octet_of_character hlead]
    refine ⟨[], ?_, rfl⟩
    rw [h, List.append_nil, List.reverse_cons, encode_append, hc]
  | opening p =>
    refine ⟨[b], by rw [h], lacks_of_opening hlead, fun text exact => ?_⟩
    exact begin_opening hlead text exact
  | stray =>
    rw [hlead] at hexact
    cases hexact

/-- The last octet of a character completes it. -/
theorem Pending.Begun.complete {p : Pending} {begun : List UInt8} {b : UInt8} (h : p.Begun begun)
    (hafter : p.after = 0) (hlow : p.low ≤ b) (hhigh : b ≤ p.high) :
    encode [Char.ofNat (p.bits * 64 + (b.toNat - 0x80))] = begun ++ [b] := by
  have hlacks := h.lacks
  rw [hafter] at hlacks
  obtain ⟨c, hc⟩ := isCharacter_iff.mp (hlacks b hlow hhigh)
  have hpush := pushAll_utf8EncodeChar c [] true
  rw [← hc, Decoder.pushAll_append, h.reads] at hpush
  simp only [Decoder.pushAll, List.foldl_cons, List.foldl_nil, Decoder.push, hlow, hhigh, and_self,
    if_true, hafter, Decoder.mk.injEq, true_and, List.cons.injEq, and_true] at hpush
  rw [hpush, hc, encode, List.flatMap_singleton]

theorem Pending.Begun.further {p : Pending} {begun : List UInt8} {b : UInt8} {n : Nat}
    (h : p.Begun begun) (hafter : p.after = n + 1) (hlow : p.low ≤ b) (hhigh : b ≤ p.high) :
    Pending.Begun ⟨p.bits * 64 + (b.toNat - 0x80), 0x80, 0xBF, n⟩ (begun ++ [b]) := by
  have hlacks := h.lacks
  rw [hafter] at hlacks
  refine ⟨hlacks b hlow hhigh, fun text exact => ?_⟩
  rw [Decoder.pushAll_append, h.reads]
  simp only [Decoder.pushAll, List.foldl_cons, List.foldl_nil, Decoder.push, hlow, hhigh, and_self,
    if_true, hafter]

/-- Nothing makes up for what was replaced. -/
theorem exact_of_begin {d : Decoder} {b : UInt8} (h : (d.begin b).exact = true) :
    d.exact = true := by
  unfold Decoder.begin at h
  cases hlead : Lead.ofOctet b <;> rw [hlead] at h
  · exact h
  · exact h
  · cases h

theorem exact_of_push {d : Decoder} {b : UInt8} (h : (d.push b).exact = true) : d.exact = true := by
  unfold Decoder.push at h
  split at h
  · exact exact_of_begin h
  · split at h
    · split at h <;> exact h
    · cases exact_of_begin h

theorem exact_of_pushAll {d : Decoder} {octets : List UInt8} (h : (d.pushAll octets).exact = true) :
    d.exact = true := by
  induction octets generalizing d with
  | nil => exact h
  | cons b octets ih => exact exact_of_push (ih h)

theorem Decoder.Reads.push {d : Decoder} {octets : List UInt8} (b : UInt8) (h : d.Reads octets)
    (hexact : (d.push b).exact = true) : (d.push b).Reads (octets ++ [b]) := by
  obtain ⟨begun, hoctets, hbegun⟩ := h
  unfold Decoder.push at hexact ⊢
  cases hpending : d.pending with
  | none =>
    rw [hpending] at hbegun hexact
    subst hbegun
    rw [List.append_nil] at hoctets
    exact Reads.begin hoctets hexact
  | some p =>
    rw [hpending] at hbegun hexact
    by_cases hin : p.low ≤ b ∧ b ≤ p.high
    · simp only [if_pos hin]
      cases hafter : p.after with
      | zero =>
        refine ⟨[], ?_, rfl⟩
        rw [List.append_nil, List.reverse_cons, encode_append,
          hbegun.complete hafter hin.1 hin.2, hoctets, List.append_assoc]
      | succ n =>
        refine ⟨begun ++ [b], ?_, hbegun.further hafter hin.1 hin.2⟩
        rw [hoctets, List.append_assoc]
    · simp only [if_neg hin] at hexact
      cases exact_of_begin hexact

theorem Decoder.Reads.pushAll {d : Decoder} {octets : List UInt8} (more : List UInt8)
    (h : d.Reads octets) (hexact : (d.pushAll more).exact = true) :
    (d.pushAll more).Reads (octets ++ more) := by
  induction more generalizing d octets with
  | nil => rwa [List.append_nil]
  | cons b more ih =>
    rw [List.append_cons]
    exact ih (h.push b (exact_of_pushAll hexact)) hexact

/-- **Octets decode exactly to the text that they encode**, and to no other. -/
theorem decode?_eq_some_iff {octets : List UInt8} {text : List Char} :
    decode? octets = some text ↔ octets = encode text := by
  constructor
  · intro h
    simp only [decode?] at h
    by_cases hpending : (Decoder.pushAll {} octets).pending.isSome
    · rw [Decoder.finish, if_pos hpending] at h
      cases h
    rw [Decoder.finish, if_neg hpending] at h
    obtain ⟨hexact, rfl⟩ := Option.ite_some_none_eq_some.mp h
    have hreads : (Decoder.pushAll {} octets).Reads octets :=
      Decoder.Reads.empty.pushAll octets hexact
    obtain ⟨begun, hoctets, hbegun⟩ := hreads
    rw [Option.not_isSome_iff_eq_none] at hpending
    rw [hpending] at hbegun
    rw [hbegun, List.append_nil] at hoctets
    exact hoctets
  · rintro rfl
    exact decode?_encode text

end HttpEcho.Utf8
