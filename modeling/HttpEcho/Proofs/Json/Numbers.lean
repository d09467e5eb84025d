import HttpEcho.Json.Numeral
import Mathlib.Algebra.Group.Int.Defs

/-! What a numeral denotes, as a relation.

An integer literal that fits 64 bits denotes itself, any other numeral what its conversion to
binary64 gives, and a numeral whose conversion leaves the finite numbers denotes nothing
(`Numeral.exists_denotes_iff`). `Numeral.number?` finds what is denoted
(`Numeral.number?_eq_some_iff`). -/
namespace HttpEcho.Json

/-- A numeral without fraction and exponent, and the integer that it spells. -/
inductive Numeral.IsLiteral : Numeral → Int → Prop where
  | plain {w} : IsLiteral ⟨false, w, none, none⟩ (digitsValue w)
  | negated {w} : IsLiteral ⟨true, w, none, none⟩ (-digitsValue w)

/-- An integer literal that is kept exactly: it fits 64 bits, with or without a sign, and is not a
negated zero. -/
structure Numeral.IsExact (n : Numeral) (i : Int) : Prop where
  literal : n.IsLiteral i
  lower : -2 ^ 63 ≤ i
  upper : i ≤ 2 ^ 64 - 1
  notNegatedZero : ¬ (n.negative ∧ i = 0)

/-- The number that a numeral denotes: itself, or what its conversion to binary64 gives. -/
inductive Numeral.Denotes : Numeral → Number → Prop where
  | exact {n i} : n.IsExact i → Denotes n (.integer i)
  | converted {n : Numeral} {units} : (∀ i, ¬ n.IsExact i) → n.realUnits? = some units →
      Denotes n (.real ⟨n.negative, units⟩)

/-- A numeral whose conversion leaves the finite numbers. -/
def Numeral.Overflows (n : Numeral) : Prop :=
  (∀ i, ¬ n.IsExact i) ∧ n.realUnits? = none

theorem Numeral.isExact_plain {w : List Char} {i : Int} :
    Numeral.IsExact ⟨false, w, none, none⟩ i ↔ digitsValue w ≤ maxNatural ∧ i = digitsValue w := by
  unfold maxNatural
  constructor
  · intro hexact
    obtain ⟨⟨⟩, hlower, hupper, -⟩ := hexact
    exact ⟨by omega, rfl⟩
  · intro hbound
    obtain ⟨hle, rfl⟩ := hbound
    exact ⟨.plain, by omega, by omega, fun h => Bool.false_ne_true h.1⟩

theorem Numeral.isExact_negated {w : List Char} {i : Int} :
    Numeral.IsExact ⟨true, w, none, none⟩ i ↔
      (0 < digitsValue w ∧ digitsValue w ≤ maxNegated) ∧ i = -digitsValue w := by
  unfold maxNegated
  constructor
  · intro hexact
    obtain ⟨⟨⟩, hlower, hupper, hzero⟩ := hexact
    have hne : ¬ (-(digitsValue w : Int) = 0) := fun h => hzero ⟨rfl, h⟩
    exact ⟨⟨by omega, by omega⟩, rfl⟩
  · intro hbound
    obtain ⟨⟨hpos, hle⟩, rfl⟩ := hbound
    exact ⟨.negated, by omega, by omega, fun h => by omega⟩

theorem Numeral.not_isExact {n : Numeral} (h : n.fraction.isSome ∨ n.exponent.isSome) (i : Int) :
    ¬ n.IsExact i := by
  intro hexact
  obtain ⟨⟨⟩, -, -, -⟩ := hexact <;> rcases h with h | h <;> cases h

/-- A numeral is converted exactly when it is no exact literal. -/
theorem Numeral.number?_eq (n : Numeral) :
    (∃ i, n.IsExact i ∧ n.number? = some (.integer i)) ∨
      ((∀ i, ¬ n.IsExact i) ∧
        n.number? = n.realUnits?.map fun units => .real ⟨n.negative, units⟩) := by
  obtain ⟨negative, whole, fraction, exponent⟩ := n
  cases fraction with
  | some f => exact Or.inr ⟨Numeral.not_isExact (Or.inl rfl), rfl⟩
  | none =>
    cases exponent with
    | some e => exact Or.inr ⟨Numeral.not_isExact (Or.inr rfl), rfl⟩
    | none =>
      cases negative with
      | false =>
        by_cases hle : digitsValue whole ≤ maxNatural
        · refine Or.inl ⟨_, Numeral.isExact_plain.mpr ⟨hle, rfl⟩, ?_⟩
          simp [Numeral.number?, hle]
        · refine Or.inr ⟨fun i h => hle (Numeral.isExact_plain.mp h).1, ?_⟩
          simp [Numeral.number?, hle]
      | true =>
        by_cases hle : 0 < digitsValue whole ∧ digitsValue whole ≤ maxNegated
        · refine Or.inl ⟨_, Numeral.isExact_negated.mpr ⟨hle, rfl⟩, ?_⟩
          simp [Numeral.number?, hle]
        · refine Or.inr ⟨fun i h => hle (Numeral.isExact_negated.mp h).1, ?_⟩
          have hfalse : (decide (0 < digitsValue whole) && decide (digitsValue whole ≤ maxNegated)) =
              false := by
            rw [← Bool.decide_and]
            exact decide_eq_false hle
          simp [Numeral.number?, hfalse]

theorem Numeral.IsExact.unique {n : Numeral} {i j : Int} (hi : n.IsExact i) (hj : n.IsExact j) :
    i = j := by
  obtain ⟨⟨⟩, -, -, -⟩ := hi <;> obtain ⟨⟨⟩, -, -, -⟩ := hj <;> rfl

theorem Numeral.number?_eq_some_iff {n : Numeral} {x : Number} :
    n.number? = some x ↔ n.Denotes x := by
  rcases n.number?_eq with ⟨i, hi, hnumber⟩ | ⟨hnone, hnumber⟩
  · rw [hnumber]
    constructor
    · intro h
      cases h
      exact .exact hi
    · intro h
      cases h with
      | exact hj => rw [hi.unique hj]
      | converted hnone _ => exact absurd hi (hnone i)
  · rw [hnumber, Option.map_eq_some_iff]
    constructor
    · intro hconverted
      obtain ⟨units, hunits, rfl⟩ := hconverted
      exact .converted hnone hunits
    · intro h
      cases h with
      | exact hj => exact absurd hj (hnone _)
      | converted _ hunits => exact ⟨_, hunits, rfl⟩

theorem Numeral.exists_denotes_iff {n : Numeral} : (∃ x, n.Denotes x) ↔ ¬ n.Overflows := by
  constructor
  · intro hdenotes hoverflows
    obtain ⟨x, hx⟩ := hdenotes
    obtain ⟨hnone, hunits⟩ := hoverflows
    cases hx with
    | exact hi => exact hnone _ hi
    | converted _ h => rw [hunits] at h; cases h
  · intro h
    by_cases hexact : ∃ i, n.IsExact i
    · obtain ⟨i, hi⟩ := hexact
      exact ⟨_, .exact hi⟩
    · have hnone : ∀ i, ¬ n.IsExact i := fun i hi => hexact ⟨i, hi⟩
      obtain ⟨units, hunits⟩ := Option.ne_none_iff_exists'.mp fun hu => h ⟨hnone, hu⟩
      exact ⟨_, .converted hnone hunits⟩

end HttpEcho.Json
