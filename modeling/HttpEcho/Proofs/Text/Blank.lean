import HttpEcho.Text.Blank
import Mathlib.Data.List.TakeWhile

/-! What is left of a text without the blanks around it.

The blanks are white space and nothing else (`isBlank_iff`). `Trims` says which text is left: blanks
may stand on both sides of it, and it begins and ends with none. `trim_eq_iff` is that it is the one
that `trim` gives. So more blanks around a text make no difference (`trim_surrounded`). -/
namespace HttpEcho.Text

/-! ### Blanks -/

/-- The code points with the property White_Space. -/
def whiteSpace : List Nat :=
  [0x09, 0x0A, 0x0B, 0x0C, 0x0D, 0x20, 0x85, 0xA0, 0x1680, 0x2000, 0x2001, 0x2002, 0x2003, 0x2004,
    0x2005, 0x2006, 0x2007, 0x2008, 0x2009, 0x200A, 0x2028, 0x2029, 0x202F, 0x205F, 0x3000]

theorem isBlank_iff {c : Char} : isBlank c = true ↔ c.toNat ∈ whiteSpace := by
  simp only [isBlank, whiteSpace, Bool.or_eq_true, Bool.and_eq_true, decide_eq_true_eq,
    List.mem_cons, List.not_mem_nil, or_false]
  omega

/-- All of a text is blank. -/
def AllBlank (text : List Char) : Prop := ∀ c ∈ text, isBlank c = true

instance (text : List Char) : Decidable (AllBlank text) :=
  List.decidableBAll (isBlank · = true) text

/-- A text begins and ends with no blank. -/
structure Bare (text : List Char) : Prop where
  first : ∀ c ∈ text.head?, isBlank c = false
  last : ∀ c ∈ text.getLast?, isBlank c = false

/-- A text between blanks. -/
inductive Trims : List Char → List Char → Prop
  | intro {before core after} : AllBlank before → Bare core → AllBlank after →
      Trims (before ++ core ++ after) core

variable {text core before after : List Char}

theorem AllBlank.append (hbefore : AllBlank before) (hafter : AllBlank after) :
    AllBlank (before ++ after) :=
  List.forall_mem_append.mpr ⟨hbefore, hafter⟩

theorem AllBlank.reverse (h : AllBlank text) : AllBlank text.reverse := fun c hc =>
  h c (List.mem_reverse.mp hc)

theorem Bare.reverse (h : Bare text) : Bare text.reverse where
  first := by rw [List.head?_reverse]; exact h.last
  last := by rw [List.getLast?_reverse]; exact h.first

theorem Trims.bare (h : Trims text core) : Bare core := by
  cases h
  assumption

/-! ### In front -/

theorem dropBlank_append (h : AllBlank before) : dropBlank (before ++ text) = dropBlank text :=
  List.dropWhile_append_of_pos h

theorem dropBlank_eq_self (h : ∀ c ∈ text.head?, isBlank c = false) : dropBlank text = text := by
  cases text with
  | nil => rfl
  | cons c rest => exact List.dropWhile_cons_of_neg (by simp [h c rfl])

theorem dropBlank_eq_nil_iff : dropBlank text = [] ↔ AllBlank text :=
  List.dropWhile_eq_nil_iff

theorem head?_dropBlank (text : List Char) : ∀ c ∈ (dropBlank text).head?, isBlank c = false := by
  intro c hc
  have hhead := List.head?_dropWhile_not isBlank text
  rw [← dropBlank, Option.mem_def.mp hc] at hhead
  simpa using hhead

/-- A text is some blanks, and what is left without them. -/
theorem exists_append_dropBlank (text : List Char) :
    ∃ before, AllBlank before ∧ text = before ++ dropBlank text :=
  ⟨text.takeWhile isBlank, fun _ hc => List.mem_takeWhile_imp hc,
    List.takeWhile_append_dropWhile.symm⟩

/-! ### On both sides -/

theorem trim_of_trims (h : Trims text core) : trim text = core := by
  cases h with
  | @intro before _ after hbefore hcore hafter =>
    have hfront : dropBlank (before ++ core ++ after) = dropBlank (core ++ after) := by
      rw [List.append_assoc, dropBlank_append hbefore]
    rw [trim, hfront]
    cases core with
    | nil =>
      rw [List.nil_append, dropBlank_eq_nil_iff.mpr hafter]
      rfl
    | cons c rest =>
      have hfirst : dropBlank (c :: rest ++ after) = c :: rest ++ after :=
        dropBlank_eq_self hcore.first
      rw [hfirst, List.reverse_append, dropBlank_append hafter.reverse,
        dropBlank_eq_self hcore.reverse.first, List.reverse_reverse]

theorem trims_trim (text : List Char) : Trims text (trim text) := by
  obtain ⟨before, hbefore, hfront⟩ := exists_append_dropBlank text
  obtain ⟨after, hafter, hback⟩ := exists_append_dropBlank (dropBlank text).reverse
  have hsplit : dropBlank text = trim text ++ after.reverse := by
    rw [trim, ← List.reverse_append, ← hback, List.reverse_reverse]
  have hbare : Bare (trim text) := by
    refine ⟨fun c hc => ?_, fun c hc => ?_⟩
    · -- What is left begins like the text that is left without the blanks in front.
      refine head?_dropBlank text c ?_
      rw [hsplit, List.head?_append, Option.mem_def.mp hc]
      rfl
    · rw [trim, List.getLast?_reverse] at hc
      exact head?_dropBlank _ c hc
  have htrims := Trims.intro hbefore hbare hafter.reverse
  rwa [List.append_assoc, ← hsplit, ← hfront] at htrims

/-- **`trim` leaves what stands between the blanks.** -/
theorem trim_eq_iff : trim text = core ↔ Trims text core :=
  ⟨fun h => h ▸ trims_trim text, trim_of_trims⟩

theorem trim_eq_self (h : Bare text) : trim text = text := by
  have htrims : Trims ([] ++ text ++ []) text := .intro nofun h nofun
  rw [List.nil_append, List.append_nil] at htrims
  exact trim_of_trims htrims

/-- Blanks around a text make no difference. -/
theorem trim_surrounded (hbefore : AllBlank before) (hafter : AllBlank after) :
    trim (before ++ text ++ after) = trim text := by
  refine trim_of_trims ?_
  generalize htrim : trim text = core
  cases trim_eq_iff.mp htrim with
  | @intro b _ a hb hcore ha =>
    have htrims := Trims.intro (hbefore.append hb) hcore (ha.append hafter)
    simpa only [List.append_assoc] using htrims

/-- Nothing is left of a text when all of it is blank. -/
theorem isEmpty_trim_iff : (trim text).isEmpty = true ↔ AllBlank text := by
  rw [List.isEmpty_iff]
  constructor
  · intro h
    cases trim_eq_iff.mp h with
    | intro hbefore _ hafter =>
      rw [List.append_nil]
      exact hbefore.append hafter
  · intro h
    have htrims : Trims (text ++ [] ++ []) [] := .intro h ⟨nofun, nofun⟩ nofun
    rw [List.append_nil, List.append_nil] at htrims
    exact trim_of_trims htrims

end HttpEcho.Text
