import HttpEcho.Proofs.Json.Grammar
import Mathlib.Control.Basic
import Mathlib.Data.List.TakeWhile
import Mathlib.Data.Option.Basic

/-! Numerals are read as the grammar writes them.

`Numeral.ofChars?_eq_some_iff`: a list of characters is read as a numeral exactly when it is a
number of the grammar, and then as the numeral whose parts it is made of. -/
namespace HttpEcho.Json
open Grammar

/-! ### Digits at the front -/

/-- What does not go on with a digit. -/
def NoDigit (r : List Char) : Prop := ∀ c ∈ r.head?, c.isDigit = false

theorem takeWhile_digits {w r : List Char} (hw : ∀ c ∈ w, c.isDigit) (hr : NoDigit r) :
    (w ++ r).takeWhile Char.isDigit = w := by
  induction w with
  | nil =>
    cases r with
    | nil => rfl
    | cons c r => simp [hr c rfl]
  | cons c w ih =>
    have hc := hw c (List.mem_cons_self ..)
    simp [hc, ih fun d hd => hw d (List.mem_cons_of_mem c hd)]

theorem dropWhile_digits {w r : List Char} (hw : ∀ c ∈ w, c.isDigit) (hr : NoDigit r) :
    (w ++ r).dropWhile Char.isDigit = r := by
  have h := List.takeWhile_append_dropWhile (p := Char.isDigit) (l := w ++ r)
  rw [takeWhile_digits hw hr] at h
  exact List.append_cancel_left h

theorem isDigit_ne {c d : Char} (hc : c.isDigit) (hd : d.isDigit = false) : c ≠ d := by
  intro he
  subst he
  rw [hc] at hd
  cases hd

/-! ### The parts of a numeral -/

theorem isWholePart_iff {w : List Char} (hw : ∀ c ∈ w, c.isDigit) :
    isWholePart w = true ↔ IsWhole w := by
  constructor
  · intro h
    cases w with
    | nil => cases h
    | cons c r =>
      by_cases hc : c = '0'
      · subst hc
        cases r with
        | nil => exact .zero
        | cons d r => simp [isWholePart] at h
      · exact .digits (hw c (List.mem_cons_self ..)) hc
          fun d hd => hw d (List.mem_cons_of_mem c hd)
  · intro h
    cases h with
    | zero => rfl
    | digits _ hc _ => simp [isWholePart, hc]

theorem Grammar.IsWhole.isDigit {w : List Char} (h : IsWhole w) : ∀ c ∈ w, c.isDigit := by
  cases h with
  | zero => simp
  | digits hc _ hw =>
    intro d hd
    rcases List.mem_cons.mp hd with rfl | hd
    · exact hc
    · exact hw d hd

theorem splitFraction_sound {s r : List Char} {f : Option (List Char)}
    (h : splitFraction s = some (f, r)) : ∃ w, s = w ++ r ∧ IsFraction w f := by
  unfold splitFraction at h
  split at h
  · next t =>
    simp only at h
    split at h
    · cases h
    · next he =>
      cases h
      refine ⟨'.' :: t.takeWhile Char.isDigit, ?_, .digits ⟨?_, fun _ => List.mem_takeWhile_imp⟩⟩
      · simp [List.takeWhile_append_dropWhile]
      · simpa using he
  · cases h
    exact ⟨[], rfl, .none⟩

theorem splitFraction_append {w r : List Char} {f : Option (List Char)} (h : IsFraction w f)
    (hr : NoDigit r) (hp : r.head? ≠ some '.') : splitFraction (w ++ r) = some (f, r) := by
  cases h with
  | none =>
    unfold splitFraction
    split
    · next t ht =>
      rw [List.nil_append] at ht
      rw [ht] at hp
      exact absurd rfl hp
    · rfl
  | @digits w hw =>
    have hne : w ≠ [] := hw.1
    simp [splitFraction, takeWhile_digits hw.2 hr, dropWhile_digits hw.2 hr, hne]

theorem splitSign_of_digits {w : List Char} (hw : ∀ c ∈ w, c.isDigit) :
    splitSign w = (false, w) := by
  unfold splitSign
  split
  · exact absurd (hw '-' (List.mem_cons_self ..)) (by decide)
  · exact absurd (hw '+' (List.mem_cons_self ..)) (by decide)
  · rfl

theorem exponent?_eq_some_iff {s : List Char} {e : Option Exponent} :
    exponent? s = some e ↔ IsExponent s e := by
  constructor
  · intro h
    unfold exponent? at h
    split at h
    · cases h
      exact .none
    · next c r =>
      simp only at h
      split at h
      · next hg =>
        obtain ⟨hc, hne, hd⟩ := hg
        cases h
        have hdigits : Digits (splitSign r).2 := ⟨by simpa using hne, by simpa using hd⟩
        revert hdigits
        unfold splitSign
        split
        · exact .minus hc
        · exact .plus hc
        · exact .bare hc
      · cases h
  · intro h
    cases h with
    | none => rfl
    | bare he hw => simp [exponent?, splitSign_of_digits hw.2, he, hw.1, List.all_eq_true.mpr hw.2]
    | plus he hw => simp [exponent?, splitSign, he, hw.1, List.all_eq_true.mpr hw.2]
    | minus he hw => simp [exponent?, splitSign, he, hw.1, List.all_eq_true.mpr hw.2]

/-- An exponent begins with neither a digit nor a point. -/
theorem Grammar.IsExponent.head {s : List Char} {e : Option Exponent} (h : IsExponent s e) :
    NoDigit s ∧ s.head? ≠ some '.' := by
  cases h with
  | none => simp [NoDigit]
  | bare he _ | plus he _ | minus he _ => rcases he with rfl | rfl <;> simp [NoDigit]

theorem Grammar.IsFraction.head {s r : List Char} {f : Option (List Char)} (h : IsFraction s f)
    (hr : NoDigit r) : NoDigit (s ++ r) := by
  cases h with
  | none => exact hr
  | digits _ => simp [NoDigit]

/-! ### Numerals -/

/-- What is read after the sign. -/
def unsigned? (negative : Bool) (s : List Char) : Option Numeral := do
  guard (isWholePart (s.takeWhile Char.isDigit))
  let (fraction, r) ← splitFraction (s.dropWhile Char.isDigit)
  let exponent ← exponent? r
  some ⟨negative, s.takeWhile Char.isDigit, fraction, exponent⟩

theorem ofChars?_minus (r : List Char) : Numeral.ofChars? ('-' :: r) = unsigned? true r := rfl

theorem ofChars?_plain {s : List Char} (h : ∀ r, s ≠ '-' :: r) :
    Numeral.ofChars? s = unsigned? false s := by
  unfold Numeral.ofChars?
  split
  next negative t hs =>
  split at hs
  · next r => exact absurd rfl (h r)
  · cases hs
    rfl

theorem unsigned?_sound {negative : Bool} {sign s : List Char} {n : Numeral}
    (hs : IsSign sign negative) (h : unsigned? negative s = some n) : IsNumber (sign ++ s) n := by
  simp only [unsigned?, Option.bind_eq_bind, Option.bind_eq_some_iff, Option.guard_eq_some'] at h
  obtain ⟨-, hwhole, ⟨fraction, r⟩, hf, exponent, he, hn⟩ := h
  obtain ⟨f, hdrop, hfraction⟩ := splitFraction_sound hf
  have hrest : s = s.takeWhile Char.isDigit ++ (f ++ r) := by
    rw [← hdrop, List.takeWhile_append_dropWhile]
  cases hn
  rw [congrArg (sign ++ ·) hrest]
  exact .mk hs ((isWholePart_iff fun _ => List.mem_takeWhile_imp).mp hwhole) hfraction
    (exponent?_eq_some_iff.mp he)

theorem unsigned?_complete {negative : Bool} {w f e : List Char} {fraction : Option (List Char)}
    {exponent : Option Exponent} (hw : IsWhole w) (hf : IsFraction f fraction)
    (he : IsExponent e exponent) :
    unsigned? negative (w ++ (f ++ e)) = some ⟨negative, w, fraction, exponent⟩ := by
  have hnd := hf.head he.head.1
  simp [unsigned?, takeWhile_digits hw.isDigit hnd, dropWhile_digits hw.isDigit hnd,
    (isWholePart_iff hw.isDigit).mpr hw, splitFraction_append hf he.head.1 he.head.2,
    exponent?_eq_some_iff.mpr he]

/-- **Reading a numeral is the grammar's rule for numbers**, in both directions. -/
theorem Numeral.ofChars?_eq_some_iff {s : List Char} {n : Numeral} :
    Numeral.ofChars? s = some n ↔ IsNumber s n := by
  constructor
  · intro h
    by_cases hs : ∃ r, s = '-' :: r
    · obtain ⟨r, rfl⟩ := hs
      rw [ofChars?_minus] at h
      exact unsigned?_sound .minus h
    · rw [ofChars?_plain fun r hr => hs ⟨r, hr⟩] at h
      exact unsigned?_sound .none h
  · intro h
    cases h with
    | mk hsign hwhole hfraction hexponent =>
      cases hsign with
      | minus =>
        rw [List.singleton_append, ofChars?_minus, unsigned?_complete hwhole hfraction hexponent]
      | none =>
        rw [List.nil_append, ofChars?_plain, unsigned?_complete hwhole hfraction hexponent]
        intro r hr
        cases hwhole with
        | zero => simp at hr
        | digits hc _ _ => exact isDigit_ne hc (by decide) (List.cons.inj hr).1

end HttpEcho.Json
