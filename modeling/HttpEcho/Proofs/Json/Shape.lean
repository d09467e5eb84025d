import HttpEcho.Proofs.Json.Canonical
import HttpEcho.Proofs.Text.Order

/-! The shape of canonical octets.

`Canonical.IsValue` is the grammar of canonical texts: that of all texts
(`Canonical.IsValue.isValue`), but without the blanks (`Canonical.IsValue.tight`), with one spelling
for each character in strings (`Canonical.isSpelling_iff`), and with the names of an object in
ascending order. Whatever a body is, its canonical octets are a text of this grammar
(`normalize_canonical`). -/
namespace HttpEcho.Json

namespace Canonical

/-! ### Strings -/

/-- The letters that may follow a backslash, and what they stand for. -/
def shortEscapes : List (Char × Char) :=
  [('"', '"'), ('\\', '\\'), ('b', '\x08'), ('t', '\t'), ('n', '\n'), ('f', '\x0c'), ('r', '\r')]

def hexDigits : List Char := "0123456789abcdef".toList

/-- The way to write a character in a string: itself, unless it is a quote, a backslash or a control
character; of these, a short escape where there is one, and otherwise the code unit. -/
inductive IsSpelling : List Char → Char → Prop
  | plain {c} : ' ' ≤ c → c ≠ '"' → c ≠ '\\' → IsSpelling [c] c
  | short {e c} : (e, c) ∈ shortEscapes → IsSpelling ['\\', e] c
  | control {c h l} : c < ' ' → (∀ e, (e, c) ∉ shortEscapes) → hexDigits[c.toNat / 16]? = some h →
      hexDigits[c.toNat % 16]? = some l → IsSpelling ['\\', 'u', '0', '0', h, l] c

theorem hexDigits_getElem? {n : Nat} (h : n < 16) : hexDigits[n]? = some (Nat.digitChar n) := by
  have hall : ∀ n < 16, hexDigits[n]? = some (Nat.digitChar n) := by decide
  exact hall n h

theorem IsSpelling.eq_escape {w : List Char} {c : Char} (h : IsSpelling w c) : w = escape c := by
  cases h with
  | plain hc hquote hback =>
    have hne : ∀ d : Char, d < ' ' → c ≠ d := fun d hd he => Char.not_lt.mpr hc (he ▸ hd)
    unfold escape
    rw [if_neg hquote, if_neg hback, if_neg (hne _ (by decide)), if_neg (hne _ (by decide)),
      if_neg (hne _ (by decide)), if_neg (hne _ (by decide)), if_neg (hne _ (by decide)),
      if_neg (Char.not_lt.mpr hc)]
  | short he =>
    have hall : ∀ p ∈ shortEscapes, ['\\', p.1] = escape p.2 := by decide
    exact hall _ he
  | control hc hshort hhigh hlow =>
    have hlt : c.toNat < 32 := hc
    rw [hexDigits_getElem? (by omega)] at hhigh hlow
    obtain rfl := Option.some.inj hhigh
    obtain rfl := Option.some.inj hlow
    have hall : ∀ n < 32, (∀ p ∈ shortEscapes, p.2 ≠ Char.ofNat n) →
        ['\\', 'u', '0', '0', Nat.digitChar (n / 16), Nat.digitChar (n % 16)] =
          escape (Char.ofNat n) := by decide
    have hspelling := hall c.toNat hlt
    rw [Char.ofNat_toNat] at hspelling
    exact hspelling fun p hp he => hshort p.1 (he ▸ hp)

theorem exists_isSpelling (c : Char) : ∃ w, IsSpelling w c := by
  by_cases hshort : ∃ e, (e, c) ∈ shortEscapes
  · obtain ⟨e, he⟩ := hshort
    exact ⟨_, .short he⟩
  have hnot := not_exists.mp hshort
  by_cases hc : c < ' '
  · have hlt : c.toNat < 32 := hc
    exact ⟨_, .control hc hnot (hexDigits_getElem? (by omega)) (hexDigits_getElem? (by omega))⟩
  · refine ⟨_, .plain (Char.not_lt.mp hc) ?_ ?_⟩
    · rintro rfl
      exact hnot '"' (by decide)
    · rintro rfl
      exact hnot '\\' (by decide)

/-- The writer's spelling of a character is the one of the grammar. -/
theorem isSpelling_iff {w : List Char} {c : Char} : IsSpelling w c ↔ w = escape c := by
  refine ⟨IsSpelling.eq_escape, ?_⟩
  rintro rfl
  obtain ⟨w, hw⟩ := exists_isSpelling c
  rw [← hw.eq_escape]
  exact hw

/-- A string: the spellings of its characters, in quotes. -/
inductive IsString : List Char → String → Prop
  | mk {ws cs} : List.Forall₂ IsSpelling ws cs →
      IsString ('"' :: (ws.flatten ++ ['"'])) (String.ofList cs)

theorem isString_quoted (s : String) : IsString (quoted s) s := by
  have hspellings : ∀ cs : List Char, List.Forall₂ IsSpelling (cs.map escape) cs := by
    intro cs
    induction cs with
    | nil => exact .nil
    | cons c cs ih => exact .cons (isSpelling_iff.mpr rfl) ih
  have hstring := IsString.mk (hspellings s.toList)
  rw [String.ofList_toList] at hstring
  exact hstring

/-! ### Values -/

/-- Members of different names, which ascend as their octets do. -/
structure Sorted (members : List (String × Tree)) : Prop where
  distinct : (members.map Prod.fst).Nodup
  ascending : members.Pairwise fun m n => Utf8.encode m.1.toList < Utf8.encode n.1.toList

mutual

/-- A value, with nothing around it and nothing between its tokens. -/
inductive IsValue : List Char → Tree → Prop
  | null : IsValue ['n', 'u', 'l', 'l'] .null
  | true : IsValue ['t', 'r', 'u', 'e'] (.boolean true)
  | false : IsValue ['f', 'a', 'l', 's', 'e'] (.boolean false)
  | number {w n} : Grammar.IsNumber w n → IsValue w (.number n)
  | string {w s} : IsString w s → IsValue w (.string s)
  | emptyArray : IsValue ['[', ']'] (.array [])
  | array {w items} : IsItems w items → IsValue ('[' :: (w ++ [']'])) (.array items)
  | emptyObject : IsValue ['{', '}'] (.object [])
  | object {w members} : IsMembers w members → Sorted members →
      IsValue ('{' :: (w ++ ['}'])) (.object members)

/-- The items of an array, at least one. -/
inductive IsItems : List Char → List Tree → Prop
  | one {w t} : IsValue w t → IsItems w [t]
  | more {w x t ts} : IsValue w t → IsItems x ts → IsItems (w ++ ',' :: x) (t :: ts)

/-- The members of an object, at least one. -/
inductive IsMembers : List Char → List (String × Tree) → Prop
  | one {k w name t} : IsString k name → IsValue w t → IsMembers (k ++ ':' :: w) [(name, t)]
  | more {k w x name t ms} : IsString k name → IsValue w t → IsMembers x ms →
      IsMembers (k ++ ':' :: (w ++ ',' :: x)) ((name, t) :: ms)

end

/-! ### Canonical texts are texts -/

theorem IsString.isString {w : List Char} {s : String} (h : IsString w s) :
    Grammar.IsString w s := by
  obtain ⟨hspellings⟩ := h
  refine .mk ?_
  induction hspellings with
  | nil => exact .nil
  | cons hw _ ih => exact .cons (hw.eq_escape ▸ isSpelling_escape _) ih

mutual

theorem IsValue.isValue {w : List Char} {t : Tree} : IsValue w t → Grammar.IsValue w t
  | .null => .null
  | .true => .true
  | .false => .false
  | .number h => .number h
  | .string h => .string h.isString
  | .emptyArray => .emptyArray .nil
  | .array h => .array h.isItems
  | .emptyObject => .emptyObject .nil
  | .object h _ => .object h.isMembers

theorem IsItems.isItems {w : List Char} {ts : List Tree} : IsItems w ts → Grammar.IsItems w ts
  | .one h => .one h.isValue.element
  | .more h hrest => .more h.isValue.element hrest.isItems

theorem IsMembers.isMembers {w : List Char} {ms : List (String × Tree)} :
    IsMembers w ms → Grammar.IsMembers w ms
  | .one hk h => .one hk.isString.name h.isValue.element
  | .more hk h hrest => .more hk.isString.name h.isValue.element hrest.isMembers

end

/-! ### Outside strings -/

/-- The characters of a text that are not in a string. The quotes that begin strings are among
them. -/
def outside : Nesting.Place → List Char → List Char
  | _, [] => []
  | .outside, c :: w => c :: outside (if c = '"' then .inString else .outside) w
  | .inString, c :: w =>
    outside (if c = '"' then .outside else if c = '\\' then .escaped else .inString) w
  | .escaped, _ :: w => outside .inString w

/-- A phrase that is outside strings at its end as at its beginning, with no blank outside them. -/
def Tight (w : List Char) : Prop :=
  ∃ y, (∀ c ∈ y, isBlank c = false) ∧ ∀ x, outside .outside (w ++ x) = y ++ outside .outside x

theorem Tight.append {v w : List Char} (hv : Tight v) (hw : Tight w) : Tight (v ++ w) := by
  obtain ⟨y, hy, heqv⟩ := hv
  obtain ⟨z, hz, heqw⟩ := hw
  refine ⟨y ++ z, fun c hc => (List.mem_append.mp hc).elim (hy c) (hz c), fun x => ?_⟩
  rw [List.append_assoc, heqv, heqw, List.append_assoc]

theorem tight_of_all {w : List Char} (h : w.all fun c => c ≠ '"' ∧ isBlank c = false) :
    Tight w := by
  have hall : ∀ c ∈ w, c ≠ '"' ∧ isBlank c = false := fun c hc =>
    of_decide_eq_true (List.all_eq_true.mp h c hc)
  refine ⟨w, fun c hc => (hall c hc).2, fun x => ?_⟩
  clear h
  induction w with
  | nil => rfl
  | cons c w ih =>
    rw [List.forall_mem_cons] at hall
    rw [List.cons_append, outside, if_neg hall.1.1, ih hall.2, List.cons_append]

theorem Tight.cons {c : Char} {w : List Char} (hc : c ≠ '"' ∧ isBlank c = false) (hw : Tight w) :
    Tight (c :: w) :=
  (tight_of_all (w := [c]) (by simp [hc])).append hw

theorem outside_plain {w : List Char} (h : ∀ c ∈ w, c ≠ '"' ∧ c ≠ '\\') (x : List Char) :
    outside .inString (w ++ x) = outside .inString x := by
  induction w with
  | nil => rfl
  | cons c w ih =>
    rw [List.forall_mem_cons] at h
    rw [List.cons_append, outside, if_neg h.1.1, if_neg h.1.2, ih h.2]

theorem outside_spelling {w : List Char} {c : Char} (h : IsSpelling w c) (x : List Char) :
    outside .inString (w ++ x) = outside .inString x := by
  cases h with
  | plain _ hquote hback =>
    exact outside_plain (w := [c]) (fun d hd => List.mem_singleton.mp hd ▸ ⟨hquote, hback⟩) x
  | short _ => rfl
  | @control _ high low _ _ hhigh hlow =>
    have hall : ∀ d ∈ hexDigits, d ≠ '"' ∧ d ≠ '\\' := fun d hd => of_decide_eq_true
      (List.all_eq_true.mp (by decide : hexDigits.all fun d => d ≠ '"' ∧ d ≠ '\\') d hd)
    have hdigits : ∀ d ∈ ['0', '0', high, low], d ≠ '"' ∧ d ≠ '\\' := by
      have hzero := hall '0' (by decide)
      exact List.forall_mem_cons.mpr ⟨hzero, List.forall_mem_cons.mpr ⟨hzero,
        List.forall_mem_cons.mpr ⟨hall _ (List.mem_of_getElem? hhigh),
          List.forall_mem_singleton.mpr (hall _ (List.mem_of_getElem? hlow))⟩⟩⟩
    exact outside_plain hdigits x

theorem IsString.tight {w : List Char} {s : String} (h : IsString w s) : Tight w := by
  obtain ⟨hspellings⟩ := h
  rename_i ws cs
  refine ⟨['"'], List.forall_mem_singleton.mpr rfl, fun x => ?_⟩
  have hinside : outside .inString (ws.flatten ++ '"' :: x) = outside .outside x := by
    induction hspellings with
    | nil => rfl
    | cons hw _ ih => rw [List.flatten_cons, List.append_assoc, outside_spelling hw, ih]
  rw [List.cons_append, List.append_assoc, List.singleton_append, ← hinside]
  rfl

theorem tight_number {w : List Char} {n : Numeral} (h : Grammar.IsNumber w n) : Tight w := by
  refine tight_of_all (List.all_eq_true.mpr fun c hc => decide_eq_true ?_)
  have hnumeral := h.isNumeralChar c hc
  refine ⟨?_, Bool.eq_false_iff.mpr fun hblank => ?_⟩
  · rintro rfl
    exact absurd hnumeral (by decide)
  · rcases isBlank_iff.mp hblank with rfl | rfl | rfl | rfl <;> exact absurd hnumeral (by decide)

mutual

theorem IsValue.tight {w : List Char} {t : Tree} : IsValue w t → Tight w
  | .null => tight_of_all (by decide)
  | .true => tight_of_all (by decide)
  | .false => tight_of_all (by decide)
  | .number h => tight_number h
  | .string h => h.tight
  | .emptyArray => tight_of_all (by decide)
  | .array h => .cons (by decide) (h.tight.append (tight_of_all (by decide)))
  | .emptyObject => tight_of_all (by decide)
  | .object h _ => .cons (by decide) (h.tight.append (tight_of_all (by decide)))

theorem IsItems.tight {w : List Char} {ts : List Tree} : IsItems w ts → Tight w
  | .one h => h.tight
  | .more h hrest => h.tight.append (.cons (by decide) hrest.tight)

theorem IsMembers.tight {w : List Char} {ms : List (String × Tree)} : IsMembers w ms → Tight w
  | .one hk h => hk.tight.append (.cons (by decide) h.tight)
  | .more hk h hrest =>
    hk.tight.append (.cons (by decide) (h.tight.append (.cons (by decide) hrest.tight)))

end

end Canonical

open Grammar Value

theorem Ascending.sorted {ms : List (String × Value)} (h : Ascending ms) :
    Canonical.Sorted (memberTrees ms) := by
  have hnames := names_memberTrees ms
  have hpairwise : ((memberTrees ms).map Prod.fst).Pairwise (· < ·) :=
    hnames ▸ List.pairwise_map.mpr h
  exact ⟨hnames ▸ h.nodup, (List.pairwise_map.mp hpairwise).imp Utf8.encode_toList_lt_iff.mpr⟩

mutual

/-- The text of a value whose objects are maps is canonical. -/
theorem Value.isCanonical_chars : (v : Value) → (∀ ms, Part (.object ms) v → Ascending ms) →
    Canonical.IsValue v.chars v.tree
  | .null, _ => .null
  | .boolean true, _ => .true
  | .boolean false, _ => .false
  | .number x, _ => .number x.isNumber_text
  | .string s, _ => .string (Canonical.isString_quoted s)
  | .array [], _ => .emptyArray
  | .array (v :: vs), h => .array (Value.isCanonical_itemsChars (v :: vs) (List.cons_ne_nil _ _)
      fun _ hu ms hms => h ms (.item hu hms))
  | .object [], _ => .emptyObject
  | .object (m :: ms), h => .object (Value.isCanonical_membersChars (m :: ms) (List.cons_ne_nil _ _)
      fun _ hn ns hns => h ns (.member hn hns)) (h _ .self).sorted

theorem Value.isCanonical_itemsChars : (vs : List Value) → vs ≠ [] →
    (∀ v ∈ vs, ∀ ms, Part (.object ms) v → Ascending ms) →
      Canonical.IsItems (itemsChars true vs) (itemTrees vs)
  | [], hne, _ => absurd rfl hne
  | [v], _, h => by
    show Canonical.IsItems (v.chars ++ []) [v.tree]
    rw [List.append_nil]
    exact .one (Value.isCanonical_chars v (h v List.mem_cons_self))
  | v :: u :: vs, _, h =>
    .more (Value.isCanonical_chars v (h v List.mem_cons_self))
      (Value.isCanonical_itemsChars (u :: vs) (List.cons_ne_nil _ _)
        fun w hw => h w (List.mem_cons_of_mem _ hw))

theorem Value.isCanonical_membersChars : (ms : List (String × Value)) → ms ≠ [] →
    (∀ m ∈ ms, ∀ ns, Part (.object ns) m.2 → Ascending ns) →
      Canonical.IsMembers (membersChars true ms) (memberTrees ms)
  | [], hne, _ => absurd rfl hne
  | [(name, v)], _, h => by
    show Canonical.IsMembers (quoted name ++ ':' :: (v.chars ++ [])) [(name, v.tree)]
    rw [List.append_nil]
    exact .one (Canonical.isString_quoted name)
      (Value.isCanonical_chars v (h (name, v) List.mem_cons_self))
  | (name, v) :: m :: ms, _, h =>
    .more (Canonical.isString_quoted name)
      (Value.isCanonical_chars v (h (name, v) List.mem_cons_self))
      (Value.isCanonical_membersChars (m :: ms) (List.cons_ne_nil _ _)
        fun n hn => h n (List.mem_cons_of_mem _ hn))

end

theorem encode_ge_of_printable {text : List Char} (h : Printable text) :
    ∀ b ∈ Utf8.encode text, 0x20 ≤ b := by
  intro b hb
  obtain ⟨c, hc, hb⟩ := List.mem_flatMap.mp hb
  by_cases hlt : c.toNat < 0x80
  · have hspace : 32 ≤ c.toNat := h c hc
    rw [Utf8.utf8EncodeChar_of_lt hlt, List.mem_singleton] at hb
    rw [hb, UInt8.le_iff_toNat_le, Utf8.toNat_ofNat (by omega)]
    exact hspace
  · exact UInt8.le_trans (by decide) (Utf8.utf8EncodeChar_of_ge (Nat.le_of_not_lt hlt) b hb)

theorem normalize_eq_encode (body : List UInt8) : ∃ v : Value,
    normalize body = v.encode ∧ ∀ ms, Part (.object ms) v → Ascending ms := by
  cases h : read body with
  | ok v =>
    obtain ⟨-, t, -, hv⟩ := read_eq_ok_iff.mp h
    exact ⟨v, normalize_of_read h, fun ms hms => hv.isRead _ hms⟩
  | error r =>
    refine ⟨.null, normalize_of_error h, fun ms hms => ?_⟩
    cases Part.null_iff.mp hms

/-- **Canonical octets are a text of the canonical grammar**, for every body. -/
theorem normalize_canonical :
    (∀ body, ∃ text t, normalize body = Utf8.encode text ∧ IsElement text t ∧
      Canonical.IsValue text t ∧ (∀ c ∈ Canonical.outside .outside text, isBlank c = false) ∧
        ∀ b ∈ normalize body, 0x20 ≤ b) ∧
    (∀ c, ∃! w, Canonical.IsSpelling w c) ∧
    ∀ x : Binary64, ∃ n, IsNumber (Number.real x).text n := by
  refine ⟨fun body => ?_, fun c => ?_, fun x => ⟨_, Number.isNumber_text _⟩⟩
  · obtain ⟨v, hv, hmaps⟩ := normalize_eq_encode body
    have hcanonical := v.isCanonical_chars hmaps
    have hprintable := encode_ge_of_printable v.printable_chars
    rw [encode_eq] at hv
    refine ⟨v.chars, v.tree, hv, hcanonical.isValue.element, hcanonical, ?_, hv ▸ hprintable⟩
    obtain ⟨y, hy, houtside⟩ := hcanonical.tight
    have hall := houtside []
    rw [List.append_nil, Canonical.outside, List.append_nil] at hall
    rwa [hall]
  · exact ⟨escape c, Canonical.isSpelling_iff.mpr rfl, fun w hw => hw.eq_escape⟩

end HttpEcho.Json
