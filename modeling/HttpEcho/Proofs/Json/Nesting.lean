import HttpEcho.Json.Nesting
import HttpEcho.Proofs.Json.Completeness
import HttpEcho.Proofs.Text.Utf8

/-! The scan for nesting, on texts of the grammar.

The scan knows nothing of the grammar, and yet on the octets of a text it finds exactly how deep
the text's tree is nested (`nestingDepth_encode`): strings hide their brackets, escapes their
quotes, and in between only brackets count. -/
namespace HttpEcho.Json

open Grammar

namespace Nesting

/-- The scan takes characters. -/
def Scan.chars (s : Scan) (text : List Char) : Scan :=
  s.pushAll (Utf8.encode text)

theorem Scan.chars_append (s : Scan) (a b : List Char) :
    s.chars (a ++ b) = (s.chars a).chars b := by
  unfold Scan.chars
  rw [Utf8.encode_append]
  exact List.foldl_append ..

theorem Scan.chars_cons (s : Scan) (c : Char) (text : List Char) :
    s.chars (c :: text) = (s.chars [c]).chars text :=
  s.chars_append [c] text

/-- A character below U+0080 is one octet. -/
theorem Scan.chars_ascii (s : Scan) {c : Char} (h : c.toNat < 0x80) :
    s.chars [c] = s.push (UInt8.ofNat c.toNat) := by
  unfold Scan.chars
  rw [Utf8.encode_cons, Utf8.utf8EncodeChar_of_lt h]
  rfl

theorem Scan.chars_fixed {s : Scan} {text : List Char}
    (h : ∀ c ∈ text, ∀ b ∈ String.utf8EncodeChar c, s.push b = s) : s.chars text = s := by
  have hall : ∀ b ∈ Utf8.encode text, s.push b = s := by
    intro b hb
    obtain ⟨c, hc, hb⟩ := List.mem_flatMap.mp hb
    exact h c hc b hb
  unfold Scan.chars
  generalize Utf8.encode text = octets at hall
  induction octets with
  | nil => rfl
  | cons b octets ih =>
    have hb : s.push b = s := hall b List.mem_cons_self
    show Scan.pushAll (s.push b) octets = s
    rw [hb]
    exact ih fun b hb => hall b (List.mem_cons_of_mem _ hb)

theorem ne_octet {c d : Char} {b : UInt8} (hb : b ∈ String.utf8EncodeChar c)
    (hd : d.toNat < 0x80) (h : c ≠ d) : b ≠ UInt8.ofNat d.toNat := by
  intro he
  subst he
  exact h ((Utf8.mem_utf8EncodeChar_iff hd).mp hb).symm

/-! ### Outside strings -/

/-- What the scan stops at outside strings. -/
def marks : List Char := ['"', '[', '{', ']', '}']

variable (depth deepest : Nat)

theorem Scan.chars_unmarked {text : List Char} (h : ∀ c ∈ text, c ∉ marks) :
    Scan.chars ⟨.outside, depth, deepest⟩ text = ⟨.outside, depth, deepest⟩ := by
  refine Scan.chars_fixed fun c hc b hb => ?_
  have hne : ∀ d ∈ marks, d.toNat < 0x80 → b ≠ UInt8.ofNat d.toNat := fun d hd hlt =>
    ne_octet hb hlt fun he => h c hc (he ▸ hd)
  have hquote : b ≠ 0x22 := hne '"' (by decide) (by decide)
  have hopen : ¬ (b = 0x5B ∨ b = 0x7B) :=
    not_or.mpr ⟨hne '[' (by decide) (by decide), hne '{' (by decide) (by decide)⟩
  have hclose : ¬ (b = 0x5D ∨ b = 0x7D) :=
    not_or.mpr ⟨hne ']' (by decide) (by decide), hne '}' (by decide) (by decide)⟩
  show (if b = 0x22 then _ else _) = _
  rw [if_neg hquote, if_neg hopen, if_neg hclose]

theorem Scan.chars_unmarked_char {c : Char} (h : c ∉ marks) :
    Scan.chars ⟨.outside, depth, deepest⟩ [c] = ⟨.outside, depth, deepest⟩ :=
  Scan.chars_unmarked depth deepest fun d hd => by rwa [List.mem_singleton.mp hd]

theorem Scan.chars_open {c : Char} (h : c = '[' ∨ c = '{') :
    Scan.chars ⟨.outside, depth, deepest⟩ [c] =
      ⟨.outside, depth + 1, max deepest (depth + 1)⟩ := by
  rcases h with rfl | rfl <;> exact Scan.chars_ascii _ (by decide)

theorem Scan.chars_close {c : Char} (h : c = ']' ∨ c = '}') :
    Scan.chars ⟨.outside, depth, deepest⟩ [c] = ⟨.outside, depth - 1, deepest⟩ := by
  rcases h with rfl | rfl <;> exact Scan.chars_ascii _ (by decide)

theorem Scan.chars_blanks {b : List Char} (h : Blanks b) :
    Scan.chars ⟨.outside, depth, deepest⟩ b = ⟨.outside, depth, deepest⟩ := by
  refine Scan.chars_unmarked depth deepest fun c hc => ?_
  rcases h c hc with rfl | rfl | rfl | rfl <;> decide

theorem not_mem_marks_of_isNumeralChar {c : Char} (h : isNumeralChar c) : c ∉ marks := by
  intro hmark
  have hall : ∀ d ∈ marks, isNumeralChar d = false := by simp [marks, isNumeralChar, Char.isDigit]
  rw [hall c hmark] at h
  cases h

theorem Scan.chars_number {w : List Char} {n : Numeral} (h : IsNumber w n) :
    Scan.chars ⟨.outside, depth, deepest⟩ w = ⟨.outside, depth, deepest⟩ :=
  Scan.chars_unmarked depth deepest fun c hc => not_mem_marks_of_isNumeralChar (h.isNumeralChar c hc)

/-! ### In strings -/

theorem Scan.chars_plain {c : Char} (hquote : c ≠ '"') (hback : c ≠ '\\') :
    Scan.chars ⟨.inString, depth, deepest⟩ [c] = ⟨.inString, depth, deepest⟩ := by
  refine Scan.chars_fixed fun d hd b hb => ?_
  rw [List.mem_singleton] at hd
  subst hd
  have hb1 : b ≠ 0x5C := ne_octet hb (d := '\\') (by decide) hback
  have hb2 : b ≠ 0x22 := ne_octet hb (d := '"') (by decide) hquote
  show (if b = 0x5C then _ else _) = _
  rw [if_neg hb1, if_neg hb2]

theorem Scan.chars_beginString :
    Scan.chars ⟨.outside, depth, deepest⟩ ['"'] = ⟨.inString, depth, deepest⟩ :=
  Scan.chars_ascii _ (by decide)

theorem Scan.chars_endString :
    Scan.chars ⟨.inString, depth, deepest⟩ ['"'] = ⟨.outside, depth, deepest⟩ :=
  Scan.chars_ascii _ (by decide)

theorem Scan.chars_backslash :
    Scan.chars ⟨.inString, depth, deepest⟩ ['\\'] = ⟨.escaped, depth, deepest⟩ :=
  Scan.chars_ascii _ (by decide)

theorem Scan.chars_escaped {c : Char} (h : c.toNat < 0x80) :
    Scan.chars ⟨.escaped, depth, deepest⟩ [c] = ⟨.inString, depth, deepest⟩ :=
  Scan.chars_ascii _ h

/-- A backslash takes the next character with it, whatever it is. -/
theorem Scan.chars_escape {c : Char} (h : c.toNat < 0x80) (rest : List Char) :
    Scan.chars ⟨.inString, depth, deepest⟩ ('\\' :: c :: rest) =
      Scan.chars ⟨.inString, depth, deepest⟩ rest := by
  rw [Scan.chars_cons, Scan.chars_backslash, Scan.chars_cons, Scan.chars_escaped _ _ h]

theorem Scan.chars_hexDigit {c : Char} {n : Nat} (h : HexDigit c n) :
    Scan.chars ⟨.inString, depth, deepest⟩ [c] = ⟨.inString, depth, deepest⟩ := by
  refine Scan.chars_plain depth deepest ?_ ?_
  · intro he
    subst he
    cases hexValue?_eq_some_iff.mpr h
  · intro he
    subst he
    cases hexValue?_eq_some_iff.mpr h

theorem Scan.chars_hexDigits {w : List Char} {n : Nat} (h : HexDigits w n) :
    Scan.chars ⟨.inString, depth, deepest⟩ w = ⟨.inString, depth, deepest⟩ := by
  induction h with
  | nil => rfl
  | snoc _ hc ih => rw [Scan.chars_append, ih, Scan.chars_hexDigit depth deepest hc]

theorem toNat_lt_of_shortEscape {e c : Char} (h : (e, c) ∈ shortEscapes) : e.toNat < 0x80 := by
  have hall : ∀ p ∈ shortEscapes, p.1.toNat < 0x80 := by decide
  exact hall _ h

theorem Scan.chars_spelling {w : List Char} {c : Char} (h : IsSpelling w c) :
    Scan.chars ⟨.inString, depth, deepest⟩ w = ⟨.inString, depth, deepest⟩ := by
  cases h with
  | plain _ hquote hback => exact Scan.chars_plain depth deepest hquote hback
  | short he => exact Scan.chars_escape depth deepest (toNat_lt_of_shortEscape he) []
  | unit hw _ =>
    rw [Scan.chars_escape depth deepest (by decide), Scan.chars_hexDigits depth deepest hw.1]
  | pair hw hx _ _ _ _ =>
    rw [Scan.chars_escape depth deepest (by decide), Scan.chars_append,
      Scan.chars_hexDigits depth deepest hw.1, Scan.chars_escape depth deepest (by decide),
      Scan.chars_hexDigits depth deepest hx.1]

theorem Scan.chars_spellings {w cs : List Char} (h : IsSpellings w cs) :
    Scan.chars ⟨.inString, depth, deepest⟩ w = ⟨.inString, depth, deepest⟩ := by
  induction h with
  | nil => rfl
  | cons hc _ ih => rw [Scan.chars_append, Scan.chars_spelling depth deepest hc, ih]

theorem Scan.chars_string {w : List Char} {s : String} (h : IsString w s) :
    Scan.chars ⟨.outside, depth, deepest⟩ w = ⟨.outside, depth, deepest⟩ := by
  obtain ⟨hw⟩ := h
  rw [Scan.chars_cons, Scan.chars_beginString, Scan.chars_append,
    Scan.chars_spellings depth deepest hw, Scan.chars_endString]

theorem Scan.chars_name {w : List Char} {name : String} (h : IsName w name) :
    Scan.chars ⟨.outside, depth, deepest⟩ w = ⟨.outside, depth, deepest⟩ := by
  obtain ⟨ha, hw, hb⟩ := h
  rw [Scan.chars_append, Scan.chars_append, Scan.chars_blanks depth deepest ha,
    Scan.chars_string depth deepest hw, Scan.chars_blanks depth deepest hb]

/-! ### Values

What is open before a value is open after it, and meanwhile the scan has been as deep as the
value is nested. -/

theorem Scan.chars_brackets {first last : Char} {w : List Char} {n : Nat}
    (hfirst : first = '[' ∨ first = '{') (hlast : last = ']' ∨ last = '}')
    (hle : depth ≤ deepest)
    (hw : ∀ deepest, depth + 1 ≤ deepest → Scan.chars ⟨.outside, depth + 1, deepest⟩ w =
      ⟨.outside, depth + 1, max deepest (depth + 1 + n)⟩) :
    Scan.chars ⟨.outside, depth, deepest⟩ (first :: (w ++ [last])) =
      ⟨.outside, depth, max deepest (depth + (1 + n))⟩ := by
  have hdeepest : max (max deepest (depth + 1)) (depth + 1 + n) = max deepest (depth + (1 + n)) := by
    omega
  rw [Scan.chars_cons, Scan.chars_append, Scan.chars_open _ _ hfirst,
    hw _ (Nat.le_max_right _ _), Scan.chars_close _ _ hlast, hdeepest, Nat.add_sub_cancel]

theorem Scan.chars_comma : Scan.chars ⟨.outside, depth, deepest⟩ [','] = ⟨.outside, depth, deepest⟩ :=
  Scan.chars_unmarked_char depth deepest (by decide)

theorem Scan.chars_colon : Scan.chars ⟨.outside, depth, deepest⟩ [':'] = ⟨.outside, depth, deepest⟩ :=
  Scan.chars_unmarked_char depth deepest (by decide)

mutual

theorem Scan.chars_value {w : List Char} {t : Tree} : IsValue w t → ∀ {depth deepest : Nat},
    depth ≤ deepest → Scan.chars ⟨.outside, depth, deepest⟩ w =
      ⟨.outside, depth, max deepest (depth + t.nesting)⟩
  | .null, depth, deepest, hle => by
    rw [Scan.chars_unmarked depth deepest (by simp [marks])]
    simp [Tree.nesting, hle]
  | .true, depth, deepest, hle => by
    rw [Scan.chars_unmarked depth deepest (by simp [marks])]
    simp [Tree.nesting, hle]
  | .false, depth, deepest, hle => by
    rw [Scan.chars_unmarked depth deepest (by simp [marks])]
    simp [Tree.nesting, hle]
  | .number h, depth, deepest, hle => by
    rw [Scan.chars_number depth deepest h]
    simp [Tree.nesting, hle]
  | .string h, depth, deepest, hle => by
    rw [Scan.chars_string depth deepest h]
    simp [Tree.nesting, hle]
  | .emptyArray h, depth, deepest, hle => by
    refine Scan.chars_brackets depth deepest (.inl rfl) (.inl rfl) hle fun deepest' hle' => ?_
    rw [Scan.chars_blanks _ _ h]
    simp [Tree.nestingItems, hle']
  | .array h, depth, deepest, hle =>
    Scan.chars_brackets depth deepest (.inl rfl) (.inl rfl) hle fun _ hle' =>
      Scan.chars_items h hle'
  | .emptyObject h, depth, deepest, hle => by
    refine Scan.chars_brackets depth deepest (.inr rfl) (.inr rfl) hle fun deepest' hle' => ?_
    rw [Scan.chars_blanks _ _ h]
    simp [Tree.nestingMembers, hle']
  | .object h, depth, deepest, hle =>
    Scan.chars_brackets depth deepest (.inr rfl) (.inr rfl) hle fun _ hle' =>
      Scan.chars_members h hle'

theorem Scan.chars_element {w : List Char} {t : Tree} : IsElement w t → ∀ {depth deepest : Nat},
    depth ≤ deepest → Scan.chars ⟨.outside, depth, deepest⟩ w =
      ⟨.outside, depth, max deepest (depth + t.nesting)⟩
  | .mk ha hw hb, depth, deepest, hle => by
    rw [Scan.chars_append, Scan.chars_append, Scan.chars_blanks _ _ ha, Scan.chars_value hw hle,
      Scan.chars_blanks _ _ hb]

theorem Scan.chars_items {w : List Char} {ts : List Tree} : IsItems w ts →
    ∀ {depth deepest : Nat}, depth ≤ deepest → Scan.chars ⟨.outside, depth, deepest⟩ w =
      ⟨.outside, depth, max deepest (depth + Tree.nestingItems ts)⟩
  | .one h, depth, deepest, hle => by
    rw [Scan.chars_element h hle]
    simp [Tree.nestingItems]
  | .more h hrest, depth, deepest, hle => by
    rw [Scan.chars_append, Scan.chars_cons _ ',', Scan.chars_element h hle, Scan.chars_comma,
      Scan.chars_items hrest (Nat.le_trans hle (Nat.le_max_left _ _)), Tree.nestingItems,
      Nat.max_assoc, Nat.add_max_add_left]

theorem Scan.chars_members {w : List Char} {ms : List (String × Tree)} : IsMembers w ms →
    ∀ {depth deepest : Nat}, depth ≤ deepest → Scan.chars ⟨.outside, depth, deepest⟩ w =
      ⟨.outside, depth, max deepest (depth + Tree.nestingMembers ms)⟩
  | .one hk h, depth, deepest, hle => by
    rw [Scan.chars_append, Scan.chars_cons _ ':', Scan.chars_name _ _ hk, Scan.chars_colon,
      Scan.chars_element h hle]
    simp [Tree.nestingMembers]
  | .more hk h hrest, depth, deepest, hle => by
    rw [Scan.chars_append, Scan.chars_cons _ ':', Scan.chars_name _ _ hk, Scan.chars_colon,
      Scan.chars_append, Scan.chars_cons _ ',', Scan.chars_element h hle, Scan.chars_comma,
      Scan.chars_members hrest (Nat.le_trans hle (Nat.le_max_left _ _)), Tree.nestingMembers,
      Nat.max_assoc, Nat.add_max_add_left]

end

end Nesting

/-- **The scan measures the tree**: on the octets of a text of the grammar it finds how deep the
text's tree is nested. -/
theorem nestingDepth_encode {text : List Char} {t : Tree} (h : IsElement text t) :
    nestingDepth (Utf8.encode text) = t.nesting := by
  have hscan := Nesting.Scan.chars_element h (Nat.le_refl 0)
  show (Nesting.Scan.chars {} text).deepest = t.nesting
  rw [hscan]
  simp

end HttpEcho.Json
