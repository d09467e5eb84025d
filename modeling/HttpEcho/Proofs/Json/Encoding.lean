import HttpEcho.Proofs.Json.Shape

/-! The compact encoding, without a buffer.

The writer goes through a value once and puts a comma before every part but the first. The compact
encoding is said by recursion on the value alone: the encodings of the parts, joined by commas, in
brackets. `write_compact` says that the writer appends this encoding to whatever a buffer holds, and
that no scalar is refused on the way, so that a null stands only for a null. -/
namespace HttpEcho.Json

/-! ### The encoding -/

/-- A character inside a string, by the table of short escapes. -/
def spelled (c : Char) : List Char :=
  match Canonical.shortEscapes.find? (·.2 = c) with
  | some (letter, _) => ['\\', letter]
  | none =>
    if c < ' ' then
      let digit (n : Nat) := Canonical.hexDigits[n]?.getD '0'
      ['\\', 'u', '0', '0', digit (c.toNat / 16), digit (c.toNat % 16)]
    else [c]

/-- A string in quotes. -/
def inQuotes (s : String) : List Char :=
  ['"'] ++ s.toList.flatMap spelled ++ ['"']

mutual

/-- The compact encoding of a value. -/
def Value.compact : Value → List Char
  | .null => "null".toList
  | .boolean b => (toString b).toList
  | .number (.integer i) => (toString i).toList
  | .number (.real x) => (Number.real x).text
  | .string s => inQuotes s
  | .array vs => ['['] ++ [','].intercalate (Value.compactItems vs) ++ [']']
  | .object ms => ['{'] ++ [','].intercalate (Value.compactMembers ms) ++ ['}']

/-- The encodings of items. -/
def Value.compactItems : List Value → List (List Char)
  | [] => []
  | v :: rest => v.compact :: Value.compactItems rest

/-- The encodings of members, each a name and a value. -/
def Value.compactMembers : List (String × Value) → List (List Char)
  | [] => []
  | (name, v) :: rest => (inQuotes name ++ [':'] ++ v.compact) :: Value.compactMembers rest

end

/-! ### Scalars -/

theorem spelled_eq_escape (c : Char) : spelled c = escape c := by
  apply Canonical.isSpelling_iff.mp
  unfold spelled
  split
  · next letter d hfound =>
    have hd : d = c := by simpa using List.find?_some hfound
    exact .short (hd ▸ List.mem_of_find?_eq_some hfound)
  · next hnone =>
    have hshort : ∀ e, (e, c) ∉ Canonical.shortEscapes := fun e he => by
      simpa using List.find?_eq_none.mp hnone (e, c) he
    by_cases hcontrol : c < ' '
    · have hlt : c.toNat < 32 := hcontrol
      have hdigit : ∀ n < 16,
          Canonical.hexDigits[n]? = some (Canonical.hexDigits[n]?.getD '0') := by decide
      rw [if_pos hcontrol]
      exact .control hcontrol hshort (hdigit _ (by omega)) (hdigit _ (by omega))
    · rw [if_neg hcontrol]
      refine .plain (Char.not_lt.mp hcontrol) ?_ ?_
      · intro hquote
        subst hquote
        exact hshort '"' (by decide)
      · intro hback
        subst hback
        exact hshort '\\' (by decide)

theorem inQuotes_eq_quoted (s : String) : inQuotes s = quoted s := by
  have hspelled : spelled = escape := funext spelled_eq_escape
  simp [inQuotes, quoted, hspelled]

theorem toList_toString_int (i : Int) : (toString i).toList = (Number.integer i).text := by
  cases i with
  | ofNat n =>
    show (toString n).toList = _
    simp [Number.text]
  | negSucc n =>
    show ("-" ++ toString (n + 1)).toList = _
    simp [Number.text]

/-! ### Arrays and objects -/

/-- Joined texts are the first one, and each other one behind a separator. -/
theorem intercalate_eq (texts : List (List Char)) :
    [','].intercalate texts = texts.headD [] ++ texts.tail.flatMap ([','] ++ ·) := by
  cases texts with
  | nil => rfl
  | cons w rest =>
    induction rest generalizing w with
    | nil => simp
    | cons x rest ih =>
      rw [List.intercalate_cons_cons, ih]
      simp

mutual

theorem Value.chars_eq_compact : (v : Value) → v.chars = v.compact
  | .null => rfl
  | .boolean true => rfl
  | .boolean false => rfl
  | .number (.integer i) => (toList_toString_int i).symm
  | .number (.real _) => rfl
  | .string s => (inQuotes_eq_quoted s).symm
  | .array [] => rfl
  | .array (v :: rest) => by
    have hv := Value.chars_eq_compact v
    have hrest := Value.itemsChars_eq_compact rest
    simp [Value.chars, Value.compact, Value.itemsChars, Value.compactItems, separator,
      intercalate_eq, hv, hrest]
  | .object [] => rfl
  | .object ((name, v) :: rest) => by
    have hv := Value.chars_eq_compact v
    have hrest := Value.membersChars_eq_compact rest
    simp [Value.chars, Value.compact, Value.membersChars, Value.compactMembers, separator,
      intercalate_eq, inQuotes_eq_quoted, hv, hrest]

theorem Value.itemsChars_eq_compact : (vs : List Value) →
    Value.itemsChars false vs = (Value.compactItems vs).flatMap ([','] ++ ·)
  | [] => rfl
  | v :: rest => by
    have hv := Value.chars_eq_compact v
    have hrest := Value.itemsChars_eq_compact rest
    simp [Value.itemsChars, Value.compactItems, separator, hv, hrest]

theorem Value.membersChars_eq_compact : (ms : List (String × Value)) →
    Value.membersChars false ms = (Value.compactMembers ms).flatMap ([','] ++ ·)
  | [] => rfl
  | (name, v) :: rest => by
    have hv := Value.chars_eq_compact v
    have hrest := Value.membersChars_eq_compact rest
    simp [Value.membersChars, Value.compactMembers, separator, inQuotes_eq_quoted, hv, hrest]

end

/-- **The writer appends the compact encoding**, to whatever the buffer holds and for every value.
No scalar, be it a value or the name of a member, is refused on the way: a buffer takes the whole
encoding of each, and nothing is put in its place. -/
theorem write_compact (v : Value) (out : Buffer) :
    (v.write out).toList = out.toList ++ Utf8.encode v.compact ∧
    ∀ (x : Scalar) (out : Buffer), ∃ written, x.put bufferSink out = .ok () written ∧
      x.write out = written ∧ written.toList = out.toList ++ Utf8.encode x.toValue.compact := by
  refine ⟨?_, fun x out => ?_⟩
  · rw [v.toList_write, v.chars_eq_compact]
  · obtain ⟨written, hok, hwritten⟩ := x.put_bufferSink out
    refine ⟨written, hok, ?_, ?_⟩
    · unfold Scalar.write
      rw [hok]
    · rw [hwritten, Value.chars_eq_compact]

example :
    ((Value.object [("a\n", .array [.null, .number (.integer (-5))]), ("b", .array [])]).write
      #[0x23]).toList = Utf8.encode "#\x7b\"a\\n\":[null,-5],\"b\":[]\x7d".toList := by
  decide

end HttpEcho.Json
