import HttpEcho.Http.Header
import Mathlib

/-! Names and their case.

A name in canonical case shows all of a name but its case: `canonicalCase_eq_iff` says that two
names are shown alike just when they differ in nothing else. Which letters are capitals then is said
without the function, by `InCanonicalCase`: of all texts that differ from a name in nothing but case
there is one like that, and it is what the name is shown as (`canonicalCase_identifies`). -/
namespace HttpEcho.Http

/-- The characters that octets are, one for each. -/
def nameText (octets : List UInt8) : List Char :=
  octets.map fun b => Char.ofNat b.toNat

/-- A name without its case. -/
def caseless (name : List Char) : List Char :=
  name.map Char.toLower

theorem toLower_eq_hyphen_iff {c : Char} : c.toLower = '-' ↔ c = '-' := by
  constructor
  · intro h
    have halpha : c.isAlpha = false := by
      rw [← Char.isAlpha_toLower_eq_isAlpha, h]
      rfl
    have hupper : ¬ c.isUpper := fun hupper => by simp [Char.isAlpha, hupper] at halpha
    rwa [Char.toLower_eq_of_not_isUpper hupper] at h
  · rintro rfl
    rfl

theorem zipWith_of_length_le {α β γ : Type} (f : β → γ) {a : List α} {b : List β}
    (h : b.length ≤ a.length) : List.zipWith (fun _ x => f x) a b = b.map f := by
  induction b generalizing a with
  | nil => simp
  | cons x b ih =>
    cases a with
    | nil => cases h
    | cons y a => rw [List.zipWith_cons_cons, ih (Nat.le_of_succ_le_succ h), List.map_cons]

theorem caseless_canonicalCase (name : List Char) :
    caseless (canonicalCase name) = caseless name := by
  have hcase : ∀ before c : Char,
      (if before = '-' then c.toUpper else c.toLower).toLower = c.toLower := by
    intro before c
    split
    · exact Char.toLower_toUpper_eq_toLower c
    · exact Char.toLower_toLower_eq_toLower c
  unfold caseless canonicalCase
  rw [List.map_zipWith]
  simp only [hcase]
  exact zipWith_of_length_le _ (by simp)

theorem canonicalCase_caseless (name : List Char) :
    canonicalCase (caseless name) = canonicalCase name := by
  have hstart : '-' :: caseless name = ('-' :: name).map Char.toLower := rfl
  unfold canonicalCase
  rw [hstart, caseless, List.zipWith_map]
  simp only [toLower_eq_hyphen_iff, Char.toUpper_toLower_eq_toUpper,
    Char.toLower_toLower_eq_toLower]

/-- Names are shown alike just when they differ in nothing but case. -/
theorem canonicalCase_eq_iff {a b : List Char} :
    canonicalCase a = canonicalCase b ↔ caseless a = caseless b := by
  constructor
  · intro h
    rw [← caseless_canonicalCase a, h, caseless_canonicalCase]
  · intro h
    rw [← canonicalCase_caseless a, h, canonicalCase_caseless]

/-! ### Letters -/

/-- The ASCII capitals, each with its small letter. -/
def letters : List (Char × Char) :=
  "ABCDEFGHIJKLMNOPQRSTUVWXYZ".toList.zip "abcdefghijklmnopqrstuvwxyz".toList

def IsCapital (c : Char) : Prop := ∃ d, (c, d) ∈ letters

def IsSmall (c : Char) : Prop := ∃ d, (d, c) ∈ letters

/-- Characters that differ in nothing but ASCII case. -/
inductive SameLetter : Char → Char → Prop
  | same {c} : SameLetter c c
  | lowered {c d} : (c, d) ∈ letters → SameLetter c d
  | raised {c d} : (c, d) ∈ letters → SameLetter d c

variable {a b w : List Char} {c d : Char} {i : Nat}

theorem mem_letters_toLower (h : c.isUpper) : (c, c.toLower) ∈ letters := by
  have hall : ∀ n < 128, (Char.ofNat n).isUpper →
      (Char.ofNat n, (Char.ofNat n).toLower) ∈ letters := by decide +kernel
  have hc := hall c.toNat (Nat.lt_of_le_of_lt (of_decide_eq_true h).2 (by decide))
  rw [Char.ofNat_toNat] at hc
  exact hc h

theorem isCapital_iff : IsCapital c ↔ c.isUpper := by
  have hall : ∀ p ∈ letters, p.1.isUpper := by decide
  constructor
  · intro h
    obtain ⟨d, hd⟩ := h
    exact hall _ hd
  · exact fun h => ⟨c.toLower, mem_letters_toLower h⟩

theorem isSmall_iff : IsSmall c ↔ c.isLower := by
  have hall : ∀ p ∈ letters, p.2.isLower := by decide
  constructor
  · intro h
    obtain ⟨d, hd⟩ := h
    exact hall _ hd
  · intro h
    have hraised : c.toUpper.isUpper := by simp [Char.isAlpha, h]
    have hpair := mem_letters_toLower hraised
    rw [Char.toLower_toUpper_eq_toLower,
      Char.toLower_eq_of_not_isUpper (Char.not_isUpper_of_isLower h)] at hpair
    exact ⟨c.toUpper, hpair⟩

theorem sameLetter_iff : SameLetter c d ↔ c.toLower = d.toLower := by
  have hall : ∀ p ∈ letters, p.1.toLower = p.2.toLower := by decide
  have hlower : ∀ c : Char, c.isUpper = false → c.toLower = c := fun c h =>
    Char.toLower_eq_of_not_isUpper (by simp [h])
  constructor
  · intro h
    cases h with
    | same => rfl
    | lowered hmem => exact hall _ hmem
    | raised hmem => exact (hall _ hmem).symm
  · intro h
    cases hc : c.isUpper <;> cases hd : d.isUpper
    · rw [hlower c hc, hlower d hd] at h
      exact h ▸ .same
    · rw [hlower c hc] at h
      exact .raised (h ▸ mem_letters_toLower hd)
    · rw [hlower d hd] at h
      exact .lowered (h ▸ mem_letters_toLower hc)
    · -- two capitals of one small letter
      have hup := congrArg Char.toUpper h
      rw [Char.toUpper_toLower_eq_toUpper, Char.toUpper_toLower_eq_toUpper,
        Char.toUpper_eq_of_not_isLower (Char.not_isLower_of_isUpper hc),
        Char.toUpper_eq_of_not_isLower (Char.not_isLower_of_isUpper hd)] at hup
      exact hup ▸ .same

/-- Texts that differ in nothing but ASCII case. -/
abbrev AlikeButCase (a b : List Char) : Prop := List.Forall₂ SameLetter a b

theorem alikeButCase_iff : AlikeButCase a b ↔ caseless a = caseless b := by
  have hsame : SameLetter = fun c d => c.toLower = d.toLower :=
    funext fun c => funext fun d => propext sameLetter_iff
  have heq : caseless a = caseless b ↔ List.Forall₂ (· = ·) (caseless a) (caseless b) := by
    rw [List.forall₂_eq_eq_eq]
  rw [heq, caseless, caseless, List.forall₂_map_left_iff, List.forall₂_map_right_iff]
  show List.Forall₂ SameLetter a b ↔ _
  rw [hsame]

/-! ### Canonical case -/

/-- A word of a name begins at the start and directly behind each hyphen. -/
def StartsWord (w : List Char) (i : Nat) : Prop :=
  i = 0 ∨ ∃ j, i = j + 1 ∧ w[j]? = some '-'

/-- Letters are capitals where words begin, and small everywhere else. -/
def InCanonicalCase (w : List Char) : Prop :=
  ∀ i c, w[i]? = some c → IsCapital c ∨ IsSmall c →
    (IsCapital c ↔ StartsWord w i) ∧ (IsSmall c ↔ ¬ StartsWord w i)

theorem startsWord_iff : StartsWord w i ↔ ('-' :: w)[i]? = some '-' := by
  cases i <;> simp [StartsWord]

instance : Decidable (StartsWord w i) :=
  decidable_of_iff _ startsWord_iff.symm

theorem getElem?_canonicalCase (w : List Char) (i : Nat) :
    (canonicalCase w)[i]? =
      w[i]?.map fun c => if StartsWord w i then c.toUpper else c.toLower := by
  cases hc : w[i]? with
  | none => simp [canonicalCase, List.getElem?_zipWith, hc]
  | some c =>
    have hlt : i < ('-' :: w).length :=
      Nat.lt_succ_of_lt (List.getElem?_eq_some_iff.mp hc).1
    simp [canonicalCase, List.getElem?_zipWith, hc, startsWord_iff,
      List.getElem?_eq_getElem hlt]

theorem startsWord_caseless : StartsWord (caseless w) i ↔ StartsWord w i := by
  simp [StartsWord, caseless, Option.map_eq_some_iff, toLower_eq_hyphen_iff]

theorem startsWord_canonicalCase : StartsWord (canonicalCase w) i ↔ StartsWord w i := by
  rw [← startsWord_caseless, caseless_canonicalCase, startsWord_caseless]

theorem inCanonicalCase_canonicalCase (w : List Char) : InCanonicalCase (canonicalCase w) := by
  intro i c hc hletter
  rw [getElem?_canonicalCase, Option.map_eq_some_iff] at hc
  obtain ⟨d, -, rfl⟩ := hc
  rw [startsWord_canonicalCase]
  simp only [isCapital_iff, isSmall_iff] at hletter ⊢
  by_cases hstart : StartsWord w i
  · simpa [hstart] using hletter
  · simpa [hstart] using hletter

/-- A name that is in canonical case is shown as it is. -/
theorem InCanonicalCase.canonicalCase_eq (h : InCanonicalCase w) : canonicalCase w = w := by
  apply List.ext_getElem?
  intro i
  rw [getElem?_canonicalCase]
  cases hc : w[i]? with
  | none => rfl
  | some c =>
    have hletter := h i c hc
    simp only [isCapital_iff, isSmall_iff] at hletter
    by_cases hstart : StartsWord w i
    · have hsmall : ¬ c.isLower := fun hlower => (hletter (.inr hlower)).2.mp hlower hstart
      simp [hstart, Char.toUpper_eq_of_not_isLower hsmall]
    · have hcapital : ¬ c.isUpper := fun hupper => hstart ((hletter (.inl hupper)).1.mp hupper)
      simp [hstart, Char.toLower_eq_of_not_isUpper hcapital]

/-- A name without capitals is its own without its case. -/
theorem caseless_eq_self (h : ∀ c ∈ w, ¬ IsCapital c) : caseless w = w := by
  have hsmall : ∀ c ∈ w, c.toLower = c := fun c hc =>
    Char.toLower_eq_of_not_isUpper (mt isCapital_iff.mpr (h c hc))
  exact (List.map_congr_left hsmall).trans (List.map_id' w)

theorem HeaderName.caseless_text (n : HeaderName) : caseless n.text = n.text := by
  have hlower := n.isName
  simp only [Bool.and_eq_true, Bool.not_eq_true', List.any_eq_false] at hlower
  exact caseless_eq_self fun c hc hcapital => hlower.2 c hc (isCapital_iff.mp hcapital)

/-- **What names are shown as.** Any two texts are shown alike exactly when they differ in nothing
but ASCII case. What a text is shown as differs from it in nothing else, has capitals where words
begin and small letters everywhere else, and is the only text like that; so it is shown as itself,
and no two header names are shown alike. -/
theorem canonicalCase_identifies (a b : List Char) :
    (canonicalCase a = canonicalCase b ↔ AlikeButCase a b) ∧
    (AlikeButCase (canonicalCase a) a ∧ InCanonicalCase (canonicalCase a)) ∧
    (∀ w, AlikeButCase w a → InCanonicalCase w → w = canonicalCase a) ∧
    canonicalCase (canonicalCase a) = canonicalCase a ∧
    ∀ n m : HeaderName, canonicalCase n.text = canonicalCase m.text ↔ n = m := by
  have hcanonical := inCanonicalCase_canonicalCase a
  refine ⟨?_, ⟨?_, hcanonical⟩, ?_, hcanonical.canonicalCase_eq, ?_⟩
  · rw [canonicalCase_eq_iff, alikeButCase_iff]
  · rw [alikeButCase_iff, caseless_canonicalCase]
  · intro w halike hw
    rw [← hw.canonicalCase_eq, canonicalCase_eq_iff, ← alikeButCase_iff]
    exact halike
  · intro n m
    rw [canonicalCase_eq_iff, n.caseless_text, m.caseless_text]
    cases n
    cases m
    simp

example : canonicalCase "--a-1b-É-x".toList = "--A-1b-É-X".toList := by decide

end HttpEcho.Http
