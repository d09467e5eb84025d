import HttpEcho.Json.Reader
import HttpEcho.Proofs.Json.Numerals

/-! Tokens are read as the grammar writes them.

`IsToken` says how a token is written, and `Lexes` how a text is made of tokens and blanks. What a
lexer has read at any point is such a text and the beginning of one more token (`Lexer.Reads`), so
that a text it has read to the end is one (`Lexer.Reads.finish`). The other way, a reader between
tokens that is given a token's text pushes the token (`outcome_token`), when what follows does not
go on with a word or a numeral. -/
namespace HttpEcho.Json
open Grammar

/-! ### Characters -/

theorem isDigit_iff {c : Char} : c.isDigit ↔ '0' ≤ c ∧ c ≤ '9' := by
  simp [Char.isDigit, Char.le_def]

theorem hexValue?_eq_some_iff {c : Char} {n : Nat} : hexValue? c = some n ↔ HexDigit c n := by
  constructor
  · intro h
    unfold hexValue? at h
    split at h
    · next hd =>
      cases h
      exact .digit (isDigit_iff.mp hd).1 (isDigit_iff.mp hd).2
    split at h
    · next hl =>
      cases h
      exact .lower hl.1 hl.2
    split at h
    · next hu =>
      cases h
      exact .upper hu.1 hu.2
    · cases h
  · intro h
    unfold hexValue?
    cases h with
    | digit h₀ h₉ => rw [if_pos (isDigit_iff.mpr ⟨h₀, h₉⟩)]
    | lower ha hf =>
      have hd : ¬ c.isDigit := fun hd => absurd (Char.le_trans ha (isDigit_iff.mp hd).2) (by decide)
      rw [if_neg hd, if_pos ⟨ha, hf⟩]
    | upper ha hf =>
      have hd : ¬ c.isDigit := fun hd => absurd (Char.le_trans ha (isDigit_iff.mp hd).2) (by decide)
      have hl : ¬ ('a' ≤ c ∧ c ≤ 'f') := fun hl => absurd (Char.le_trans hl.1 hf) (by decide)
      rw [if_neg hd, if_neg hl, if_pos ⟨ha, hf⟩]

theorem escaped?_eq_some_iff {e c : Char} : escaped? e = some c ↔ (e, c) ∈ shortEscapes := by
  constructor
  · intro h
    unfold escaped? at h
    split at h <;> cases h <;> decide
  · intro h
    simp only [shortEscapes, List.mem_cons, Prod.mk.injEq, List.not_mem_nil, or_false] at h
    rcases h with h | h | h | h | h | h | h | h <;> obtain ⟨rfl, rfl⟩ := h <;> rfl

theorem isBlank_iff {c : Char} : isBlank c ↔ c = ' ' ∨ c = '\t' ∨ c = '\n' ∨ c = '\r' := by
  simp [isBlank, or_assoc]

/-! ### How tokens are written -/

inductive IsToken : List Char → Token → Prop where
  | beginArray : IsToken ['['] .beginArray
  | endArray : IsToken [']'] .endArray
  | beginObject : IsToken ['{'] .beginObject
  | endObject : IsToken ['}'] .endObject
  | comma : IsToken [','] .comma
  | colon : IsToken [':'] .colon
  | null : IsToken ['n', 'u', 'l', 'l'] .null
  | true : IsToken ['t', 'r', 'u', 'e'] (.boolean true)
  | false : IsToken ['f', 'a', 'l', 's', 'e'] (.boolean false)
  | number {w n} : IsNumber w n → IsToken w (.number n)
  | string {w s} : IsString w s → IsToken w (.string s)

theorem isToken_of_word? {w : List Char} {t : Token} (h : word? w = some t) : IsToken w t := by
  unfold word? at h
  split at h
  · next hw =>
    cases h
    exact hw ▸ .null
  split at h
  · next hw =>
    cases h
    exact hw ▸ .true
  split at h
  · next hw =>
    cases h
    exact hw ▸ .false
  · cases h

/-- A text that is made of tokens and blanks. -/
inductive Lexes : List Char → List Token → Prop where
  | nil : Lexes [] []
  | blank {y ts c} : Lexes y ts → isBlank c → Lexes (y ++ [c]) ts
  | token {y ts x t} : Lexes y ts → IsToken x t → Lexes (y ++ x) (ts ++ [t])

/-! ### What a lexer has read -/

/-- A first half of a character beyond the basic plane. -/
def IsHighHalf (w : List Char) (n : Nat) : Prop := IsCodeUnit w n ∧ 0xD800 ≤ n ∧ n < 0xDC00

/-- What a lexer has read since the last token or blank. -/
inductive Lexer.Holds : Lexer → List Char → Prop where
  | between : Holds .between []
  | word {read} : Holds (.word read) read.reverse
  | numeral {read} : Holds (.numeral read) read.reverse
  | text {read w} : IsSpellings w read.reverse → Holds (.text read) ('"' :: w)
  | escape {read w} : IsSpellings w read.reverse → Holds (.escape read) ('"' :: (w ++ ['\\']))
  | unit {read w u code after} : IsSpellings w read.reverse → HexDigits u code →
      u.length + after = 3 → Holds (.unit read none after code) ('"' :: (w ++ '\\' :: 'u' :: u))
  | halfway {read w h high} : IsSpellings w read.reverse → IsHighHalf h high →
      Holds (.halfway read high) ('"' :: (w ++ '\\' :: 'u' :: h))
  | halfwayEscape {read w h high} : IsSpellings w read.reverse → IsHighHalf h high →
      Holds (.halfwayEscape read high) ('"' :: (w ++ '\\' :: 'u' :: (h ++ ['\\'])))
  | secondUnit {read w h high u code after} : IsSpellings w read.reverse → IsHighHalf h high →
      HexDigits u code → u.length + after = 3 →
      Holds (.unit read (some high) after code)
        ('"' :: (w ++ '\\' :: 'u' :: (h ++ '\\' :: 'u' :: u)))

/-- The text that a lexer has read, and the tokens it has given. -/
def Lexer.Reads (lx : Lexer) (text : List Char) (ts : List Token) : Prop :=
  ∃ y x, text = y ++ x ∧ Lexes y ts ∧ lx.Holds x

theorem Grammar.IsSpellings.snoc {w x : List Char} {cs : List Char} {c : Char}
    (h : IsSpellings w cs) (hx : IsSpelling x c) : IsSpellings (w ++ x) (cs ++ [c]) := by
  induction h with
  | nil => simpa using IsSpellings.cons hx .nil
  | cons hs _ ih => simpa using IsSpellings.cons hs ih

/-- A lexer that goes on with what it has begun. -/
theorem Lexer.Reads.go_on {lx lx' : Lexer} {text : List Char} {ts : List Token} {c : Char}
    (h : lx.Reads text ts) (hc : ∀ x, lx.Holds x → lx'.Holds (x ++ [c])) :
    lx'.Reads (text ++ [c]) ts := by
  obtain ⟨y, x, rfl, hy, hx⟩ := h
  exact ⟨y, x ++ [c], by simp, hy, hc x hx⟩

/-- A lexer that completes a token. -/
theorem Lexer.Reads.complete {lx : Lexer} {text more : List Char} {ts : List Token} {t : Token}
    (h : lx.Reads text ts) (ht : ∀ x, lx.Holds x → IsToken (x ++ more) t) :
    Lexer.between.Reads (text ++ more) (ts ++ [t]) := by
  obtain ⟨y, x, rfl, hy, hx⟩ := h
  exact ⟨y ++ (x ++ more), [], by simp, .token hy (ht x hx), .between⟩

/-- The tokens that are one character each. -/
def punctuation : List (Char × Token) :=
  [('[', .beginArray), (']', .endArray), ('{', .beginObject), ('}', .endObject), (',', .comma),
    (':', .colon)]

theorem isToken_of_mem_punctuation {c : Char} {t : Token} (h : (c, t) ∈ punctuation) :
    IsToken [c] t := by
  simp only [punctuation, List.mem_cons, List.not_mem_nil, or_false, Prod.mk.injEq] at h
  rcases h with ⟨rfl, rfl⟩ | ⟨rfl, rfl⟩ | ⟨rfl, rfl⟩ | ⟨rfl, rfl⟩ | ⟨rfl, rfl⟩ | ⟨rfl, rfl⟩
  exacts [.beginArray, .endArray, .beginObject, .endObject, .comma, .colon]

/-- What a lexer between tokens may make of a character. -/
inductive Lexer.Starts (c : Char) : Lexer → List Token → Prop where
  | blank : isBlank c → Starts c .between []
  | mark {t} : (c, t) ∈ punctuation → Starts c .between [t]
  | text : c = '"' → Starts c (.text []) []
  | numeral : c = '-' ∨ c.isDigit → Starts c (.numeral [c]) []
  | word : isWordChar c → Starts c (.word [c]) []

theorem Lexer.starts_of_start {lx : Lexer} {tokens : List Token} {c : Char}
    (h : Lexer.start c = some (lx, tokens)) : Lexer.Starts c lx tokens := by
  have mark : ∀ (t : Token) {d : Char}, c = d → (d, t) ∈ punctuation →
      some (Lexer.between, [t]) = some (lx, tokens) → Lexer.Starts c lx tokens := by
    intro t d hcd ht he
    cases he
    exact .mark (hcd ▸ ht)
  unfold Lexer.start at h
  by_cases hb : isBlank c
  · rw [if_pos hb] at h
    cases h
    exact .blank hb
  rw [if_neg hb] at h
  by_cases h₁ : c = '['
  · exact mark .beginArray h₁ (by decide) (by rwa [if_pos h₁] at h)
  rw [if_neg h₁] at h
  by_cases h₂ : c = ']'
  · exact mark .endArray h₂ (by decide) (by rwa [if_pos h₂] at h)
  rw [if_neg h₂] at h
  by_cases h₃ : c = '{'
  · exact mark .beginObject h₃ (by decide) (by rwa [if_pos h₃] at h)
  rw [if_neg h₃] at h
  by_cases h₄ : c = '}'
  · exact mark .endObject h₄ (by decide) (by rwa [if_pos h₄] at h)
  rw [if_neg h₄] at h
  by_cases h₅ : c = ','
  · exact mark .comma h₅ (by decide) (by rwa [if_pos h₅] at h)
  rw [if_neg h₅] at h
  by_cases h₆ : c = ':'
  · exact mark .colon h₆ (by decide) (by rwa [if_pos h₆] at h)
  rw [if_neg h₆] at h
  by_cases hq : c = '"'
  · rw [if_pos hq] at h
    cases h
    exact .text hq
  rw [if_neg hq] at h
  by_cases hn : c = '-' ∨ c.isDigit
  · rw [if_pos hn] at h
    cases h
    exact .numeral hn
  rw [if_neg hn] at h
  by_cases hw : isWordChar c
  · rw [if_pos hw] at h
    cases h
    exact .word hw
  · rw [if_neg hw] at h
    cases h

theorem Lexer.Reads.start {lx : Lexer} {text : List Char} {ts tokens : List Token} {c : Char}
    (h : Lexer.between.Reads text ts) (hc : Lexer.start c = some (lx, tokens)) :
    lx.Reads (text ++ [c]) (ts ++ tokens) := by
  have opening : ∀ {lx' : Lexer}, lx'.Holds [c] → lx'.Reads (text ++ [c]) (ts ++ []) := by
    intro lx' hl
    rw [List.append_nil]
    refine h.go_on fun x hx => ?_
    cases hx
    exact hl
  cases Lexer.starts_of_start hc with
  | blank hb =>
    obtain ⟨y, x, rfl, hy, hx⟩ := h
    cases hx
    exact ⟨y ++ [c], [], by simp, by simpa using Lexes.blank hy hb, .between⟩
  | mark ht =>
    refine h.complete fun x hx => ?_
    cases hx
    exact isToken_of_mem_punctuation ht
  | text hq =>
    subst hq
    exact opening (@Lexer.Holds.text [] [] .nil)
  | numeral => exact opening (@Lexer.Holds.numeral [c])
  | word => exact opening (@Lexer.Holds.word [c])

theorem Lexer.Holds.spelled {read w z : List Char} {c : Char} (hw : IsSpellings w read.reverse)
    (hz : IsSpelling z c) : Lexer.Holds (.text (c :: read)) ('"' :: (w ++ z)) :=
  .text (by rw [List.reverse_cons]; exact hw.snoc hz)

theorem Grammar.HexDigits.codeUnit {u : List Char} {code n : Nat} {c : Char} (hu : HexDigits u code)
    (hl : u.length + 0 = 3) (hc : HexDigit c n) : IsCodeUnit (u ++ [c]) (16 * code + n) := by
  refine ⟨hu.snoc hc, ?_⟩
  rw [List.length_append, List.length_singleton]
  omega

/-- A code unit is complete: a character, or the first half of one. -/
theorem Lexer.Holds.unitRead {lx : Lexer} {read x : List Char} {high : Option Nat} {code n : Nat}
    {c : Char} (hx : Lexer.Holds (.unit read high 0 code) x) (hc : HexDigit c n)
    (hu : Lexer.unitRead read high (16 * code + n) = some lx) : lx.Holds (x ++ [c]) := by
  cases hx with
  | unit hw hd hl =>
    have hunit := hd.codeUnit hl hc
    simp only [Lexer.unitRead] at hu
    simp only [List.cons_append, List.append_assoc]
    split at hu
    · next hbasic =>
      cases hu
      exact .spelled hw (.unit hunit hbasic)
    split at hu
    · next hbasic hlow =>
      cases hu
      exact .halfway hw ⟨hunit, by omega, hlow⟩
    · cases hu
  | secondUnit hw hh hd hl =>
    have hunit := hd.codeUnit hl hc
    simp only [Lexer.unitRead] at hu
    simp only [List.cons_append, List.append_assoc]
    split at hu
    · next hlow =>
      cases hu
      rw [Nat.add_comm _ 0x10000, ← Nat.add_assoc]
      exact .spelled hw (.pair hh.1 hunit hh.2.1 hh.2.2 hlow.1 hlow.2)
    · cases hu

/-- A lexer in a string, at a character that ends no token. -/
theorem Lexer.Holds.push {lx lx' : Lexer} {x : List Char} {c : Char} (hx : lx.Holds x)
    (h : lx.push c = some (lx', [])) (hs : lx ≠ .between) : lx'.Holds (x ++ [c]) := by
  cases hx with
  | between => exact absurd rfl hs
  | @word read =>
    simp only [Lexer.push] at h
    split at h
    · cases h
      simpa using @Lexer.Holds.word (c :: read)
    · simp [Option.bind_eq_some_iff] at h
  | @numeral read =>
    simp only [Lexer.push] at h
    split at h
    · cases h
      simpa using @Lexer.Holds.numeral (c :: read)
    · simp [Option.bind_eq_some_iff] at h
  | text hw =>
    simp only [Lexer.push] at h
    split at h
    · cases h
    split at h
    · next hc =>
      cases h
      subst hc
      exact .escape hw
    split at h
    · cases h
    · next hq hb hc =>
      cases h
      exact .spelled hw (.plain (Char.not_lt.mp hc) hq hb)
  | escape hw =>
    simp only [Lexer.push] at h
    simp only [List.cons_append, List.append_assoc]
    split at h
    · next hc =>
      cases h
      subst hc
      exact .unit hw .nil rfl
    · simp only [Option.map_eq_some_iff, Prod.mk.injEq, and_true] at h
      obtain ⟨e, he, rfl⟩ := h
      exact .spelled hw (.short (escaped?_eq_some_iff.mp he))
  | halfway hw hh =>
    simp only [Lexer.push] at h
    simp only [List.cons_append, List.append_assoc]
    split at h
    · next hc =>
      cases h
      subst hc
      exact .halfwayEscape hw hh
    · cases h
  | halfwayEscape hw hh =>
    simp only [Lexer.push] at h
    simp only [List.cons_append, List.append_assoc]
    split at h
    · next hc =>
      cases h
      subst hc
      exact .secondUnit hw hh .nil rfl
    · cases h
  | @unit _ _ _ _ after hw hd hl =>
    simp only [Lexer.push, Option.bind_eq_bind, Option.bind_eq_some_iff] at h
    obtain ⟨n, hn, h⟩ := h
    cases after with
    | zero =>
      simp only [Option.map_eq_some_iff, Prod.mk.injEq, and_true] at h
      obtain ⟨_, hu, rfl⟩ := h
      exact (Lexer.Holds.unit hw hd hl).unitRead (hexValue?_eq_some_iff.mp hn) hu
    | succ k =>
      cases h
      simp only [List.cons_append, List.append_assoc]
      refine .unit hw (hd.snoc (hexValue?_eq_some_iff.mp hn)) ?_
      rw [List.length_append, List.length_singleton]
      omega
  | @secondUnit _ _ _ _ _ _ after hw hh hd hl =>
    simp only [Lexer.push, Option.bind_eq_bind, Option.bind_eq_some_iff] at h
    obtain ⟨n, hn, h⟩ := h
    cases after with
    | zero =>
      simp only [Option.map_eq_some_iff, Prod.mk.injEq, and_true] at h
      obtain ⟨_, hu, rfl⟩ := h
      exact (Lexer.Holds.secondUnit hw hh hd hl).unitRead (hexValue?_eq_some_iff.mp hn) hu
    | succ k =>
      cases h
      simp only [List.cons_append, List.append_assoc]
      refine .secondUnit hw hh (hd.snoc (hexValue?_eq_some_iff.mp hn)) ?_
      rw [List.length_append, List.length_singleton]
      omega

/-- What a lexer has read, when it has come to the end of a word or a numeral. -/
theorem Lexer.Holds.token {lx : Lexer} {x : List Char} {t : Token} (hx : lx.Holds x)
    (h : lx.finish = some [t]) : IsToken x t := by
  cases hx with
  | between | text _ | escape _ | unit _ _ _ | halfway _ _ | halfwayEscape _ _
    | secondUnit _ _ _ _ => simp [Lexer.finish] at h
  | word =>
    simp only [Lexer.finish, Option.map_eq_some_iff, List.cons.injEq, and_true] at h
    obtain ⟨_, hw, rfl⟩ := h
    exact isToken_of_word? hw
  | numeral =>
    simp only [Lexer.finish, Option.map_eq_some_iff, List.cons.injEq, and_true] at h
    obtain ⟨_, hn, rfl⟩ := h
    exact .number (Numeral.ofChars?_eq_some_iff.mp hn)

/-- Takes a character that ends the word or the numeral before it. -/
theorem Lexer.Reads.complete_start {lx lx' : Lexer} {text : List Char} {ts tokens : List Token}
    {t : Token} {c : Char} (h : lx.Reads text ts) (hf : lx.finish = some [t])
    (hc : Lexer.start c = some (lx', tokens)) :
    lx'.Reads (text ++ [c]) (ts ++ t :: tokens) := by
  have hbetween : Lexer.between.Reads (text ++ []) (ts ++ [t]) :=
    h.complete fun x hx => by rw [List.append_nil]; exact hx.token hf
  rw [List.append_nil] at hbetween
  simpa using hbetween.start hc

/-- **A character keeps what a lexer has read a text of tokens and blanks**, and of the beginning
of one more token. -/
theorem Lexer.Reads.push {lx lx' : Lexer} {text : List Char} {ts tokens : List Token} {c : Char}
    (h : lx.Reads text ts) (hp : lx.push c = some (lx', tokens)) :
    lx'.Reads (text ++ [c]) (ts ++ tokens) := by
  by_cases hb : lx = .between
  · subst hb
    exact h.start hp
  by_cases ht : tokens = []
  · subst ht
    rw [List.append_nil]
    exact h.go_on fun x hx => hx.push hp hb
  cases lx with
  | between => exact absurd rfl hb
  | word read =>
    simp only [Lexer.push] at hp
    split at hp
    · cases hp
      exact absurd rfl ht
    · simp only [Option.bind_eq_bind, Option.bind_eq_some_iff] at hp
      obtain ⟨t, hw, ⟨next, started⟩, hc, hn⟩ := hp
      cases hn
      exact h.complete_start (by simp [Lexer.finish, hw]) hc
  | numeral read =>
    simp only [Lexer.push] at hp
    split at hp
    · cases hp
      exact absurd rfl ht
    · simp only [Option.bind_eq_bind, Option.bind_eq_some_iff] at hp
      obtain ⟨n, hn, ⟨next, started⟩, hc, hs⟩ := hp
      cases hs
      exact h.complete_start (by simp [Lexer.finish, hn]) hc
  | text read =>
    simp only [Lexer.push] at hp
    split at hp
    · next hq =>
      cases hp
      subst hq
      refine h.complete fun x hx => ?_
      cases hx with
      | text hw => exact .string (.mk hw)
    · split at hp
      · cases hp
        exact absurd rfl ht
      · split at hp
        · cases hp
        · cases hp
          exact absurd rfl ht
  | escape read =>
    simp only [Lexer.push] at hp
    split at hp
    · cases hp
      exact absurd rfl ht
    · simp only [Option.map_eq_some_iff, Prod.mk.injEq] at hp
      obtain ⟨_, _, _, rfl⟩ := hp
      exact absurd rfl ht
  | unit read high after code =>
    simp only [Lexer.push, Option.bind_eq_bind, Option.bind_eq_some_iff] at hp
    obtain ⟨n, -, hp⟩ := hp
    split at hp
    · cases hp
      exact absurd rfl ht
    · simp only [Option.map_eq_some_iff, Prod.mk.injEq] at hp
      obtain ⟨_, _, _, rfl⟩ := hp
      exact absurd rfl ht
  | halfway read high | halfwayEscape read high =>
    simp only [Lexer.push] at hp
    split at hp
    · cases hp
      exact absurd rfl ht
    · cases hp

theorem Lexer.Reads.finish {lx : Lexer} {text : List Char} {ts tokens : List Token}
    (h : lx.Reads text ts) (hf : lx.finish = some tokens) : Lexes text (ts ++ tokens) := by
  cases lx with
  | between =>
    cases hf
    obtain ⟨y, x, rfl, hy, hx⟩ := h
    cases hx
    simpa using hy
  | word read | numeral read =>
    have htoken : ∃ t, tokens = [t] := by
      simp only [Lexer.finish, Option.map_eq_some_iff] at hf
      obtain ⟨_, _, rfl⟩ := hf
      exact ⟨_, rfl⟩
    obtain ⟨t, rfl⟩ := htoken
    obtain ⟨y, x, rfl, hy, hx⟩ := h
    exact hy.token (hx.token hf)
  | text _ | escape _ | unit _ _ _ _ | halfway _ _ | halfwayEscape _ _ => cases hf

end HttpEcho.Json
