import HttpEcho.Json.Tree

/-! The grammar of JSON texts.

Each relation says of a list of characters that it is a phrase of the grammar, and what the phrase
says. Nothing here reads from left to right: a text is of the grammar when it can be taken apart
along the rules, whoever does it. `IsElement` is the rule for a whole text: one value, with blanks
around it and nothing else. -/
namespace HttpEcho.Json.Grammar

/-- Blanks between tokens: there are four. -/
def Blanks (w : List Char) : Prop := ∀ c ∈ w, c = ' ' ∨ c = '\t' ∨ c = '\n' ∨ c = '\r'

theorem Blanks.nil : Blanks [] := by simp [Blanks]

theorem Blanks.append {a b : List Char} (ha : Blanks a) (hb : Blanks b) : Blanks (a ++ b) := by
  intro c hc
  rcases List.mem_append.mp hc with hc | hc
  · exact ha c hc
  · exact hb c hc

/-! ### Numbers -/

/-- One digit or more. -/
def Digits (w : List Char) : Prop := w ≠ [] ∧ ∀ c ∈ w, c.isDigit

inductive IsSign : List Char → Bool → Prop where
  | none : IsSign [] false
  | minus : IsSign ['-'] true

/-- The digits before a point: a zero alone, or digits that do not begin with one. -/
inductive IsWhole : List Char → Prop where
  | zero : IsWhole ['0']
  | digits {c w} : c.isDigit → c ≠ '0' → (∀ d ∈ w, d.isDigit) → IsWhole (c :: w)

inductive IsFraction : List Char → Option (List Char) → Prop where
  | none : IsFraction [] none
  | digits {w} : Digits w → IsFraction ('.' :: w) (some w)

inductive IsExponent : List Char → Option Exponent → Prop where
  | none : IsExponent [] none
  | bare {e w} : e = 'e' ∨ e = 'E' → Digits w → IsExponent (e :: w) (some ⟨false, w⟩)
  | plus {e w} : e = 'e' ∨ e = 'E' → Digits w → IsExponent (e :: '+' :: w) (some ⟨false, w⟩)
  | minus {e w} : e = 'e' ∨ e = 'E' → Digits w → IsExponent (e :: '-' :: w) (some ⟨true, w⟩)

inductive IsNumber : List Char → Numeral → Prop where
  | mk {s w f e negative fraction exponent} : IsSign s negative → IsWhole w →
      IsFraction f fraction → IsExponent e exponent →
      IsNumber (s ++ (w ++ (f ++ e))) ⟨negative, w, fraction, exponent⟩

/-! ### Strings -/

/-- A hexadecimal digit of either case, and its value. -/
inductive HexDigit : Char → Nat → Prop where
  | digit {c} : '0' ≤ c → c ≤ '9' → HexDigit c (c.toNat - '0'.toNat)
  | lower {c} : 'a' ≤ c → c ≤ 'f' → HexDigit c (c.toNat - 'a'.toNat + 10)
  | upper {c} : 'A' ≤ c → c ≤ 'F' → HexDigit c (c.toNat - 'A'.toNat + 10)

/-- Hexadecimal digits, and their value. -/
inductive HexDigits : List Char → Nat → Prop where
  | nil : HexDigits [] 0
  | snoc {w c m n} : HexDigits w m → HexDigit c n → HexDigits (w ++ [c]) (16 * m + n)

/-- A code unit has four digits. -/
def IsCodeUnit (w : List Char) (n : Nat) : Prop := HexDigits w n ∧ w.length = 4

/-- The letters that may follow a backslash, and what they stand for. -/
def shortEscapes : List (Char × Char) :=
  [('"', '"'), ('\\', '\\'), ('/', '/'), ('b', '\x08'), ('f', '\x0c'), ('n', '\n'), ('r', '\r'),
    ('t', '\t')]

/-- The ways to write a character in a string: itself, unless it is a control character, a quote
or a backslash; a short escape; its code unit; or, beyond the basic plane, two of them. A half of
such a pair does not stand alone. -/
inductive IsSpelling : List Char → Char → Prop where
  | plain {c} : ' ' ≤ c → c ≠ '"' → c ≠ '\\' → IsSpelling [c] c
  | short {e c} : (e, c) ∈ shortEscapes → IsSpelling ['\\', e] c
  | unit {w n} : IsCodeUnit w n → n < 0xD800 ∨ 0xE000 ≤ n →
      IsSpelling ('\\' :: 'u' :: w) (Char.ofNat n)
  | pair {w x high low} : IsCodeUnit w high → IsCodeUnit x low → 0xD800 ≤ high → high < 0xDC00 →
      0xDC00 ≤ low → low < 0xE000 →
      IsSpelling ('\\' :: 'u' :: (w ++ '\\' :: 'u' :: x))
        (Char.ofNat (0x10000 + (high - 0xD800) * 0x400 + (low - 0xDC00)))

inductive IsSpellings : List Char → List Char → Prop where
  | nil : IsSpellings [] []
  | cons {w x c cs} : IsSpelling w c → IsSpellings x cs → IsSpellings (w ++ x) (c :: cs)

inductive IsString : List Char → String → Prop where
  | mk {w cs} : IsSpellings w cs → IsString ('"' :: (w ++ ['"'])) (String.ofList cs)

/-- A member's name: a string with blanks around it. -/
inductive IsName : List Char → String → Prop where
  | mk {a w b name} : Blanks a → IsString w name → Blanks b → IsName (a ++ (w ++ b)) name

/-! ### Values -/

mutual

inductive IsValue : List Char → Tree → Prop where
  | null : IsValue ['n', 'u', 'l', 'l'] .null
  | true : IsValue ['t', 'r', 'u', 'e'] (.boolean true)
  | false : IsValue ['f', 'a', 'l', 's', 'e'] (.boolean false)
  | number {w n} : IsNumber w n → IsValue w (.number n)
  | string {w s} : IsString w s → IsValue w (.string s)
  | emptyArray {w} : Blanks w → IsValue ('[' :: (w ++ [']'])) (.array [])
  | array {w items} : IsItems w items → IsValue ('[' :: (w ++ [']'])) (.array items)
  | emptyObject {w} : Blanks w → IsValue ('{' :: (w ++ ['}'])) (.object [])
  | object {w members} : IsMembers w members → IsValue ('{' :: (w ++ ['}'])) (.object members)

/-- A value with blanks around it. -/
inductive IsElement : List Char → Tree → Prop where
  | mk {a w b t} : Blanks a → IsValue w t → Blanks b → IsElement (a ++ (w ++ b)) t

/-- The items of an array, at least one. -/
inductive IsItems : List Char → List Tree → Prop where
  | one {w t} : IsElement w t → IsItems w [t]
  | more {w x t ts} : IsElement w t → IsItems x ts → IsItems (w ++ ',' :: x) (t :: ts)

/-- The members of an object, at least one. -/
inductive IsMembers : List Char → List (String × Tree) → Prop where
  | one {k w name t} : IsName k name → IsElement w t → IsMembers (k ++ ':' :: w) [(name, t)]
  | more {k w x name t ms} : IsName k name → IsElement w t → IsMembers x ms →
      IsMembers (k ++ ':' :: (w ++ ',' :: x)) ((name, t) :: ms)

end

end HttpEcho.Json.Grammar
