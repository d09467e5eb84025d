import HttpEcho.Proofs.Json.NumberText

/-! Compact texts.

The writer appends octets to a buffer; `Value.chars` are the characters they encode, without a
buffer (`encode_eq`). They are a text of the grammar, whatever the value is, and say the tree
`Value.tree` (`Value.isElement_chars`). So reading what was written comes down to what a value's
tree denotes (`read_encode_iff`). -/
namespace HttpEcho.Json

open Grammar

/-! ### Texts of values -/

/-- The characters of a string, in quotes. -/
def quoted (s : String) : List Char :=
  '"' :: (s.toList.flatMap escape ++ ['"'])

/-- A comma, before all but the first of several. -/
def separator (first : Bool) : List Char :=
  if first then [] else [',']

mutual

/-- The characters of a value. -/
def Value.chars : Value → List Char
  | .null => ['n', 'u', 'l', 'l']
  | .boolean true => ['t', 'r', 'u', 'e']
  | .boolean false => ['f', 'a', 'l', 's', 'e']
  | .number x => x.text
  | .string s => quoted s
  | .array vs => '[' :: (Value.itemsChars true vs ++ [']'])
  | .object ms => '{' :: (Value.membersChars true ms ++ ['}'])

/-- The characters of items, with commas between them. -/
def Value.itemsChars : (first : Bool) → List Value → List Char
  | _, [] => []
  | first, v :: rest => separator first ++ (v.chars ++ Value.itemsChars false rest)

/-- The characters of members, with commas between them. -/
def Value.membersChars : (first : Bool) → List (String × Value) → List Char
  | _, [] => []
  | first, (name, v) :: rest =>
    separator first ++ (quoted name ++ ':' :: (v.chars ++ Value.membersChars false rest))

end

/-! ### The buffer -/

/-- A scalar, as the value that it is. -/
def Scalar.toValue : Scalar → Value
  | .null => .null
  | .boolean b => .boolean b
  | .number x => .number x
  | .string s => .string s

theorem forM_bufferSink (cs : List Char) (out : Buffer) :
    ∃ written, cs.forM (fun c => bufferSink (escape c)) out = .ok () written ∧
      written.toList = out.toList ++ Utf8.encode (cs.flatMap escape) := by
  induction cs generalizing out with
  | nil => exact ⟨out, rfl, (List.append_nil _).symm⟩
  | cons c cs ih =>
    obtain ⟨written, hok, hwritten⟩ := ih (out.text (escape c))
    refine ⟨written, hok, ?_⟩
    rw [hwritten, Utf8.toList_text, List.flatMap_cons, Utf8.encode_append, List.append_assoc]

theorem putString_bufferSink (s : String) (out : Buffer) :
    ∃ written, putString bufferSink s out = .ok () written ∧
      written.toList = out.toList ++ Utf8.encode (quoted s) := by
  obtain ⟨inner, hok, hinner⟩ := forM_bufferSink s.toList (out.text ['"'])
  have hquoted : quoted s = ['"'] ++ (s.toList.flatMap escape ++ ['"']) := rfl
  refine ⟨inner.text ['"'], ?_, ?_⟩
  · show (EStateM.bind (s.toList.forM fun c => bufferSink (escape c))
      fun _ => bufferSink ['"']) (out.text ['"']) = _
    unfold EStateM.bind
    rw [hok]
    rfl
  · rw [Utf8.toList_text, hinner, Utf8.toList_text, hquoted, Utf8.encode_append,
      Utf8.encode_append, List.append_assoc, List.append_assoc]

/-- A buffer refuses no scalar. -/
theorem Scalar.put_bufferSink (x : Scalar) (out : Buffer) :
    ∃ written, x.put bufferSink out = .ok () written ∧
      written.toList = out.toList ++ Utf8.encode x.toValue.chars := by
  cases x with
  | null => exact ⟨_, rfl, Utf8.toList_text out _⟩
  | boolean b => cases b <;> exact ⟨_, rfl, Utf8.toList_text out _⟩
  | number x => exact ⟨_, rfl, Utf8.toList_text out _⟩
  | string s => exact putString_bufferSink s out

theorem Scalar.toList_write (x : Scalar) (out : Buffer) :
    (x.write out).toList = out.toList ++ Utf8.encode x.toValue.chars := by
  obtain ⟨written, hok, hwritten⟩ := x.put_bufferSink out
  unfold Scalar.write
  rw [hok]
  exact hwritten

theorem toList_writeSeparator (first : Bool) (out : Buffer) :
    (writeSeparator first out).toList = out.toList ++ Utf8.encode (separator first) := by
  cases first with
  | true => exact (List.append_nil _).symm
  | false => exact Utf8.toList_text out [',']

mutual

theorem Value.toList_write : (v : Value) → ∀ out : Buffer,
    (v.write out).toList = out.toList ++ Utf8.encode v.chars
  | .null, out => Scalar.null.toList_write out
  | .boolean b, out => (Scalar.boolean b).toList_write out
  | .number x, out => (Scalar.number x).toList_write out
  | .string s, out => (Scalar.string s).toList_write out
  | .array vs, out => by
    have hchars : (Value.array vs).chars = ['['] ++ (Value.itemsChars true vs ++ [']']) := rfl
    rw [Value.write, Utf8.toList_text, Value.toList_writeItems vs, Utf8.toList_text, hchars,
      Utf8.encode_append, Utf8.encode_append, List.append_assoc, List.append_assoc]
  | .object ms, out => by
    have hchars : (Value.object ms).chars = ['{'] ++ (Value.membersChars true ms ++ ['}']) := rfl
    rw [Value.write, Utf8.toList_text, Value.toList_writeMembers ms, Utf8.toList_text, hchars,
      Utf8.encode_append, Utf8.encode_append, List.append_assoc, List.append_assoc]

theorem Value.toList_writeItems : (vs : List Value) → ∀ (first : Bool) (out : Buffer),
    (Value.writeItems vs first out).toList =
      out.toList ++ Utf8.encode (Value.itemsChars first vs)
  | [], _, out => (List.append_nil _).symm
  | v :: rest, first, out => by
    rw [Value.writeItems, Value.toList_writeItems rest, Value.toList_write v,
      toList_writeSeparator, Value.itemsChars, Utf8.encode_append, Utf8.encode_append,
      List.append_assoc, List.append_assoc]

theorem Value.toList_writeMembers : (ms : List (String × Value)) →
    ∀ (first : Bool) (out : Buffer), (Value.writeMembers ms first out).toList =
      out.toList ++ Utf8.encode (Value.membersChars first ms)
  | [], _, out => (List.append_nil _).symm
  | (name, v) :: rest, first, out => by
    have hchars : Value.membersChars first ((name, v) :: rest) =
        separator first ++ (quoted name ++ ([':'] ++ (v.chars ++ Value.membersChars false rest))) :=
      rfl
    rw [Value.writeMembers, Value.toList_writeMembers rest, Value.toList_write v, Utf8.toList_text,
      Scalar.toList_write, toList_writeSeparator, hchars]
    simp only [Scalar.toValue, Value.chars, Utf8.encode_append, List.append_assoc]

end

theorem encode_eq (v : Value) : v.encode = Utf8.encode v.chars :=
  v.toList_write #[]

/-! ### Their trees -/

mutual

/-- What the text of a value says. -/
def Value.tree : Value → Tree
  | .null => .null
  | .boolean b => .boolean b
  | .number x => .number x.numeral
  | .string s => .string s
  | .array vs => .array (Value.itemTrees vs)
  | .object ms => .object (Value.memberTrees ms)

def Value.itemTrees : List Value → List Tree
  | [] => []
  | v :: rest => v.tree :: Value.itemTrees rest

def Value.memberTrees : List (String × Value) → List (String × Tree)
  | [] => []
  | (name, v) :: rest => (name, v.tree) :: Value.memberTrees rest

end

theorem Value.names_memberTrees (ms : List (String × Value)) :
    (Value.memberTrees ms).map Prod.fst = ms.map Prod.fst := by
  induction ms with
  | nil => rfl
  | cons m ms ih =>
    rw [List.map_cons, ← ih]
    rfl

mutual

theorem Value.nesting_tree : (v : Value) → v.tree.nesting = v.nesting
  | .null => rfl
  | .boolean _ => rfl
  | .number _ => rfl
  | .string _ => rfl
  | .array vs => congrArg (1 + ·) (Value.nesting_itemTrees vs)
  | .object ms => congrArg (1 + ·) (Value.nesting_memberTrees ms)

theorem Value.nesting_itemTrees : (vs : List Value) →
    Tree.nestingItems (Value.itemTrees vs) = Value.nestingItems vs
  | [] => rfl
  | v :: rest => congrArg₂ max (Value.nesting_tree v) (Value.nesting_itemTrees rest)

theorem Value.nesting_memberTrees : (ms : List (String × Value)) →
    Tree.nestingMembers (Value.memberTrees ms) = Value.nestingMembers ms
  | [] => rfl
  | (_, v) :: rest => congrArg₂ max (Value.nesting_tree v) (Value.nesting_memberTrees rest)

end

theorem hexDigit_digitChar {n : Nat} (h : n < 16) : HexDigit (Nat.digitChar n) n := by
  have hall : ∀ n < 16, hexValue? (Nat.digitChar n) = some n := by decide
  exact hexValue?_eq_some_iff.mp (hall n h)

theorem hexDigits_control {n : Nat} (h : n < 32) :
    HexDigits ['0', '0', Nat.digitChar (n / 16), Nat.digitChar (n % 16)] n := by
  have hzero : HexDigit '0' 0 := hexValue?_eq_some_iff.mp rfl
  have hzeros : HexDigits ['0', '0'] 0 := .snoc (.snoc .nil hzero) hzero
  have hhigh : HexDigits ['0', '0', Nat.digitChar (n / 16)] (16 * 0 + n / 16) :=
    .snoc hzeros (hexDigit_digitChar (by omega))
  have hlow : HexDigits ['0', '0', Nat.digitChar (n / 16), Nat.digitChar (n % 16)]
      (16 * (16 * 0 + n / 16) + n % 16) := .snoc hhigh (hexDigit_digitChar (by omega))
  have hvalue : 16 * (16 * 0 + n / 16) + n % 16 = n := by omega
  rw [hvalue] at hlow
  exact hlow

/-- The writer's spelling of a character is one of the grammar's. -/
theorem isSpelling_escape (c : Char) : IsSpelling (escape c) c := by
  unfold escape
  by_cases hquote : c = '"'
  · subst hquote
    exact .short (by decide)
  rw [if_neg hquote]
  by_cases hback : c = '\\'
  · subst hback
    exact .short (by decide)
  rw [if_neg hback]
  by_cases hb : c = '\x08'
  · subst hb
    exact .short (by decide)
  rw [if_neg hb]
  by_cases ht : c = '\t'
  · subst ht
    exact .short (by decide)
  rw [if_neg ht]
  by_cases hn : c = '\n'
  · subst hn
    exact .short (by decide)
  rw [if_neg hn]
  by_cases hf : c = '\x0c'
  · subst hf
    exact .short (by decide)
  rw [if_neg hf]
  by_cases hr : c = '\r'
  · subst hr
    exact .short (by decide)
  rw [if_neg hr]
  by_cases hcontrol : c < ' '
  · rw [if_pos hcontrol]
    have hlt : c.toNat < 32 := hcontrol
    have hspelling := IsSpelling.unit ⟨hexDigits_control hlt, rfl⟩ (Or.inl (by omega))
    rw [Char.ofNat_toNat] at hspelling
    exact hspelling
  · rw [if_neg hcontrol]
    exact .plain (Char.not_lt.mp hcontrol) hquote hback

theorem isString_quoted (s : String) : IsString (quoted s) s := by
  have hspellings : ∀ cs : List Char, IsSpellings (cs.flatMap escape) cs := by
    intro cs
    induction cs with
    | nil => exact .nil
    | cons c cs ih => exact .cons (isSpelling_escape c) ih
  have hstring := IsString.mk (hspellings s.toList)
  rw [String.ofList_toList] at hstring
  exact hstring

theorem Grammar.IsString.name {w : List Char} {name : String} (h : IsString w name) :
    IsName w name := by
  have hname := IsName.mk .nil h .nil
  rw [List.append_nil] at hname
  exact hname

theorem Grammar.IsValue.element {w : List Char} {t : Tree} (h : IsValue w t) : IsElement w t := by
  have helement := IsElement.mk .nil h .nil
  rw [List.append_nil] at helement
  exact helement

mutual

theorem Value.isValue_chars : (v : Value) → IsValue v.chars v.tree
  | .null => .null
  | .boolean true => .true
  | .boolean false => .false
  | .number x => .number x.isNumber_text
  | .string s => .string (isString_quoted s)
  | .array [] => .emptyArray .nil
  | .array (v :: rest) => .array (Value.isItems_chars (v :: rest) (List.cons_ne_nil _ _))
  | .object [] => .emptyObject .nil
  | .object (m :: rest) => .object (Value.isMembers_chars (m :: rest) (List.cons_ne_nil _ _))

theorem Value.isItems_chars : (vs : List Value) → vs ≠ [] →
    IsItems (Value.itemsChars true vs) (Value.itemTrees vs)
  | [], h => absurd rfl h
  | [v], _ => by
    show IsItems (v.chars ++ []) [v.tree]
    rw [List.append_nil]
    exact .one (Value.isValue_chars v).element
  | v :: u :: rest, _ =>
    .more (Value.isValue_chars v).element
      (Value.isItems_chars (u :: rest) (List.cons_ne_nil _ _))

theorem Value.isMembers_chars : (ms : List (String × Value)) → ms ≠ [] →
    IsMembers (Value.membersChars true ms) (Value.memberTrees ms)
  | [], h => absurd rfl h
  | [(name, v)], _ => by
    show IsMembers (quoted name ++ ':' :: (v.chars ++ [])) [(name, v.tree)]
    rw [List.append_nil]
    exact .one (isString_quoted name).name (Value.isValue_chars v).element
  | (name, v) :: m :: rest, _ =>
    .more (isString_quoted name).name (Value.isValue_chars v).element
      (Value.isMembers_chars (m :: rest) (List.cons_ne_nil _ _))

end

/-- **What is written is JSON**, for every value. -/
theorem Value.isElement_chars (v : Value) : IsElement v.chars v.tree :=
  v.isValue_chars.element

theorem Value.tree_eq_of_encode_eq {v w : Value} (h : v.encode = w.encode) : v.tree = w.tree := by
  rw [encode_eq, encode_eq] at h
  have hw := w.isElement_chars
  rw [← Utf8.encode_injective h] at hw
  exact v.isElement_chars.unique hw

/-- Reading what was written gives what the value's tree denotes. -/
theorem read_encode_iff {v w : Value} :
    read v.encode = .ok w ↔ v.nesting ≤ maxDepth ∧ v.tree.Denotes w := by
  rw [read_eq_ok_iff, encode_eq, Utf8.decodeLossy_encode, nestingDepth_encode v.isElement_chars,
    v.nesting_tree]
  refine and_congr_right fun _ => ?_
  constructor
  · intro helement
    obtain ⟨t, ht, hw⟩ := helement
    rw [v.isElement_chars.unique ht]
    exact hw
  · exact fun hw => ⟨v.tree, v.isElement_chars, hw⟩

/-! ### No control characters -/

/-- Characters from U+0020 on. -/
def Printable (w : List Char) : Prop := ∀ c ∈ w, ' ' ≤ c

instance (w : List Char) : Decidable (Printable w) :=
  decidable_of_iff (w.all (' ' ≤ ·)) (by simp [Printable])

theorem Printable.append {v w : List Char} (hv : Printable v) (hw : Printable w) :
    Printable (v ++ w) := by
  intro c hc
  rcases List.mem_append.mp hc with hc | hc
  · exact hv c hc
  · exact hw c hc

theorem Printable.cons {c : Char} {w : List Char} (hc : ' ' ≤ c) (hw : Printable w) :
    Printable (c :: w) :=
  List.forall_mem_cons.mpr ⟨hc, hw⟩

theorem Grammar.HexDigits.printable {w : List Char} {n : Nat} (h : HexDigits w n) :
    Printable w := by
  induction h with
  | nil => exact fun c hc => by cases hc
  | snoc _ hc ih =>
    refine ih.append (Printable.cons ?_ fun c hc => by cases hc)
    cases hc with
    | digit hle => exact Char.le_trans (by decide) hle
    | lower hle => exact Char.le_trans (by decide) hle
    | upper hle => exact Char.le_trans (by decide) hle

theorem Grammar.IsSpelling.printable {w : List Char} {c : Char} (h : IsSpelling w c) :
    Printable w := by
  cases h with
  | plain hc _ _ => exact Printable.cons hc fun c hc => by cases hc
  | short he =>
    have hall : ∀ p ∈ shortEscapes, Printable ['\\', p.1] := by decide
    exact hall _ he
  | unit hw _ => exact Printable.cons (by decide) (Printable.cons (by decide) hw.1.printable)
  | pair hw hx _ _ _ _ =>
    have hlow := Printable.cons (c := '\\') (by decide)
      (Printable.cons (c := 'u') (by decide) hx.1.printable)
    exact Printable.cons (by decide) (Printable.cons (by decide) (hw.1.printable.append hlow))

theorem Grammar.IsSpellings.printable {w cs : List Char} (h : IsSpellings w cs) :
    Printable w := by
  induction h with
  | nil => exact fun c hc => by cases hc
  | cons hc _ ih => exact hc.printable.append ih

theorem Grammar.IsString.printable {w : List Char} {s : String} (h : IsString w s) :
    Printable w := by
  obtain ⟨hw⟩ := h
  exact Printable.cons (by decide) (hw.printable.append (by decide))

theorem Grammar.IsNumber.printable {w : List Char} {n : Numeral} (h : IsNumber w n) :
    Printable w := by
  intro c hc
  have hnumeral := h.isNumeralChar c hc
  by_cases hdigit : c.isDigit
  · exact Char.le_trans (by decide) (isDigit_iff.mp hdigit).1
  · simp only [Json.isNumeralChar, hdigit, Bool.false_or, Bool.or_eq_true, decide_eq_true_eq]
      at hnumeral
    rcases hnumeral with (((rfl | rfl) | rfl) | rfl) | rfl <;> decide

theorem printable_separator (first : Bool) : Printable (separator first) := by
  cases first <;> decide

mutual

theorem Value.printable_chars : (v : Value) → Printable v.chars
  | .null => by decide
  | .boolean true => by decide
  | .boolean false => by decide
  | .number x => x.isNumber_text.printable
  | .string s => (isString_quoted s).printable
  | .array vs =>
    Printable.cons (by decide) ((Value.printable_itemsChars vs true).append (by decide))
  | .object ms =>
    Printable.cons (by decide) ((Value.printable_membersChars ms true).append (by decide))

theorem Value.printable_itemsChars : (vs : List Value) → (first : Bool) →
    Printable (Value.itemsChars first vs)
  | [], _ => fun c hc => by cases hc
  | v :: rest, first =>
    (printable_separator first).append
      ((Value.printable_chars v).append (Value.printable_itemsChars rest false))

theorem Value.printable_membersChars : (ms : List (String × Value)) → (first : Bool) →
    Printable (Value.membersChars first ms)
  | [], _ => fun c hc => by cases hc
  | (name, v) :: rest, first =>
    (printable_separator first).append ((isString_quoted name).printable.append
      (Printable.cons (by decide)
        ((Value.printable_chars v).append (Value.printable_membersChars rest false))))

end

end HttpEcho.Json
