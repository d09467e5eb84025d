import HttpEcho.Proofs.Json.Canonical
import HttpEcho.Proofs.Json.Structure

/-! What canonical octets do not show.

The tree of a text has lost the blanks between tokens and the way in which characters are written in
strings. `Tree.Same` goes on from there: it is the least equivalence of trees that lets members of
different names change places, and a member give way to a later one of its name, in any object at
any depth. It keeps whether a number is too large (`Same.tooLarge_iff`), and the value that a tree
has when `embeddingName` is a name like others (`Same.plain_eq`). These two decide what is read of a
text without that name, so that texts whose trees are the same have the same canonical octets:
`normalize_eq_of_same`. -/
namespace HttpEcho.Json

open Grammar

/-! ### Trees that say the same -/

namespace Tree

/-- Trees that differ in presentation only. -/
inductive Same : Tree → Tree → Prop where
  | refl {t} : Same t t
  | symm {s t} : Same s t → Same t s
  | trans {s t u} : Same s t → Same t u → Same s u
  | item {before after s t} : Same s t →
      Same (.array (before ++ s :: after)) (.array (before ++ t :: after))
  | member {before after name s t} : Same s t →
      Same (.object (before ++ (name, s) :: after)) (.object (before ++ (name, t) :: after))
  /-- Members of different names change places. -/
  | swap {before after m n} : m.1 ≠ n.1 →
      Same (.object (before ++ m :: n :: after)) (.object (before ++ n :: m :: after))
  /-- A member that denotes something gives way to a later one of its name. -/
  | drop {before after name s t v} : s.Denotes v → (name, t) ∈ after →
      Same (.object (before ++ (name, s) :: after)) (.object (before ++ after))

/-- A member at some depth has a name. -/
inductive HasName (name : String) : Tree → Prop where
  | here {t ms} : (name, t) ∈ ms → HasName name (.object ms)
  | item {t ts} : t ∈ ts → HasName name t → HasName name (.array ts)
  | member {m ms} : m ∈ ms → HasName name m.2 → HasName name (.object ms)

/-- A number at some depth is too large. -/
inductive TooLarge : Tree → Prop where
  | number {n} : n.Overflows → TooLarge (.number n)
  | item {t ts} : t ∈ ts → TooLarge t → TooLarge (.array ts)
  | member {m ms} : m ∈ ms → TooLarge m.2 → TooLarge (.object ms)

theorem hasName_array_iff {name : String} {ts : List Tree} :
    (array ts).HasName name ↔ ∃ t ∈ ts, t.HasName name := by
  constructor
  · intro h
    cases h with
    | item ht hname => exact ⟨_, ht, hname⟩
  · rintro ⟨t, ht, hname⟩
    exact .item ht hname

theorem hasName_object_iff {name : String} {ms : List (String × Tree)} :
    (object ms).HasName name ↔ ∃ m ∈ ms, m.1 = name ∨ m.2.HasName name := by
  constructor
  · intro h
    cases h with
    | here hm => exact ⟨_, hm, Or.inl rfl⟩
    | member hm hname => exact ⟨_, hm, Or.inr hname⟩
  · rintro ⟨⟨k, t⟩, hm, rfl | hname⟩
    · exact .here hm
    · exact .member hm hname

/-- What is neither an array nor an object has no names in it. -/
theorem not_hasName_of_nesting {name : String} {t : Tree} (h : t.nesting = 0) :
    ¬ t.HasName name := by
  intro hname
  cases hname with
  | here => simp [nesting] at h
  | item => simp [nesting] at h
  | member => simp [nesting] at h

theorem tooLarge_array_iff {ts : List Tree} : (array ts).TooLarge ↔ ∃ t ∈ ts, t.TooLarge := by
  constructor
  · intro h
    cases h with
    | item ht hlarge => exact ⟨_, ht, hlarge⟩
  · rintro ⟨t, ht, hlarge⟩
    exact .item ht hlarge

theorem tooLarge_object_iff {ms : List (String × Tree)} :
    (object ms).TooLarge ↔ ∃ m ∈ ms, m.2.TooLarge := by
  constructor
  · intro h
    cases h with
    | member hm hlarge => exact ⟨_, hm, hlarge⟩
  · rintro ⟨m, hm, hlarge⟩
    exact .member hm hlarge

theorem TooLarge.flaw {t : Tree} (h : t.TooLarge) : t.Flaw := by
  induction h with
  | number hn => exact .overflow hn
  | item ht _ ih => exact .item ht ih
  | member hm _ ih => exact .member hm ih

theorem Same.tooLarge_iff {s t : Tree} (h : s.Same t) : s.TooLarge ↔ t.TooLarge := by
  induction h with
  | refl => exact Iff.rfl
  | symm _ ih => exact ih.symm
  | trans _ _ ih ih' => exact ih.trans ih'
  | item _ ih =>
    rw [tooLarge_array_iff, tooLarge_array_iff]
    simp only [List.mem_append, List.mem_cons, or_and_right, exists_or, exists_eq_left, ih]
  | member _ ih =>
    rw [tooLarge_object_iff, tooLarge_object_iff]
    simp only [List.mem_append, List.mem_cons, or_and_right, exists_or, exists_eq_left, ih]
  | @swap before after m n _ =>
    have hperm : (before ++ m :: n :: after).Perm (before ++ n :: m :: after) :=
      (List.Perm.swap n m after).append_left before
    rw [tooLarge_object_iff, tooLarge_object_iff]
    simp only [hperm.mem_iff]
  | @drop before after name s t v hv _ =>
    -- What is dropped denotes something, so it is not what is too large.
    have hsound : ¬ s.TooLarge := fun hlarge => hlarge.flaw.not_denotes v hv
    rw [tooLarge_object_iff, tooLarge_object_iff]
    simp only [List.mem_append, List.mem_cons, or_and_right, exists_or, exists_eq_left, hsound,
      false_or]

/-! ### Values without embedded texts -/

mutual

/-- The value that a tree has when no name is special. A number that is too large is null. -/
def plain : Tree → Value
  | .null => .null
  | .boolean b => .boolean b
  | .number n =>
    match n.number? with
    | some x => .number x
    | none => .null
  | .string s => .string s
  | .array ts => .array (plainItems ts)
  | .object ms => .object (insertAll [] (plainMembers ms))

/-- The values of items. -/
def plainItems : List Tree → List Value
  | [] => []
  | t :: ts => t.plain :: plainItems ts

/-- The values of members, under their names. -/
def plainMembers : List (String × Tree) → List (String × Value)
  | [] => []
  | (name, t) :: ms => (name, t.plain) :: plainMembers ms

end

theorem plainItems_eq_map (ts : List Tree) : plainItems ts = ts.map plain := by
  induction ts with
  | nil => rfl
  | cons t ts ih => rw [plainItems, ih, List.map_cons]

theorem plainMembers_eq_map (ms : List (String × Tree)) :
    plainMembers ms = ms.map fun m => (m.1, m.2.plain) := by
  induction ms with
  | nil => rfl
  | cons m ms ih => rw [plainMembers, ih, List.map_cons]

mutual

theorem denotes_plain : (t : Tree) → ¬ t.HasName embeddingName → ¬ t.TooLarge → t.Denotes t.plain
  | .null, _, _ => .null
  | .boolean _, _, _ => .boolean
  | .number n, _, hsize => by
    obtain ⟨x, hx⟩ := Numeral.exists_denotes_iff.mpr fun hn => hsize (.number hn)
    rw [plain, Numeral.number?_eq_some_iff.mpr hx]
    exact .number hx
  | .string _, _, _ => .string
  | .array ts, hname, hsize => .array (itemsDenote_plainItems ts
      (fun _ ht h => hname (.item ht h)) fun _ ht h => hsize (.item ht h))
  | .object ms, hname, hsize => by
    refine .object (fun m hm he => ?_) (membersDenote_plainMembers ms
      (fun _ hm h => hname (.member hm h)) fun _ hm h => hsize (.member hm h)) (isMapOf_insertAll _)
    obtain ⟨name, t⟩ := m
    subst he
    exact hname (.here (List.mem_of_mem_head? hm))

theorem itemsDenote_plainItems : (ts : List Tree) → (∀ t ∈ ts, ¬ t.HasName embeddingName) →
    (∀ t ∈ ts, ¬ t.TooLarge) → ItemsDenote ts (plainItems ts)
  | [], _, _ => .nil
  | t :: ts, hname, hsize =>
    .cons (denotes_plain t (hname t List.mem_cons_self) (hsize t List.mem_cons_self))
      (itemsDenote_plainItems ts (fun s hs => hname s (List.mem_cons_of_mem t hs))
        fun s hs => hsize s (List.mem_cons_of_mem t hs))

theorem membersDenote_plainMembers : (ms : List (String × Tree)) →
    (∀ m ∈ ms, ¬ m.2.HasName embeddingName) → (∀ m ∈ ms, ¬ m.2.TooLarge) →
      MembersDenote ms (plainMembers ms)
  | [], _, _ => .nil
  | (name, t) :: ms, hname, hsize =>
    .cons (denotes_plain t (hname (name, t) List.mem_cons_self) (hsize (name, t) List.mem_cons_self))
      (membersDenote_plainMembers ms (fun m hm => hname m (List.mem_cons_of_mem _ hm))
        fun m hm => hsize m (List.mem_cons_of_mem _ hm))

end

end Tree

/-! ### Maps of pairs in another order -/

theorem insertAll_congr {ps qs : List (String × Value)}
    (h : ∀ name, ps.reverse.lookup name = qs.reverse.lookup name) :
    insertAll [] ps = insertAll [] qs := by
  have hmap := isMapOf_insertAll qs
  exact isMapOf_iff.mp ⟨hmap.ascending, fun name => (hmap.lookup name).trans (h name).symm⟩

theorem lookup_singleton {name k : String} {v : Value} :
    [(k, v)].lookup name = if name = k then some v else none := by
  by_cases h : name = k
  · rw [h, if_pos rfl, List.lookup_cons_self]
  · have hne : (name == k) = false := beq_false_of_ne h
    rw [if_neg h, List.lookup_cons, hne]
    rfl

/-- Pairs of different names can be inserted in either order. -/
theorem insertAll_swap (before after : List (String × Value)) {p q : String × Value}
    (h : p.1 ≠ q.1) :
    insertAll [] (before ++ p :: q :: after) = insertAll [] (before ++ q :: p :: after) := by
  obtain ⟨k, v⟩ := p
  obtain ⟨l, w⟩ := q
  refine insertAll_congr fun name => ?_
  simp only [List.reverse_append, List.reverse_cons, List.append_assoc, List.lookup_append,
    lookup_singleton]
  by_cases hk : name = k
  · have hl : name ≠ l := hk ▸ h
    simp only [if_pos hk, if_neg hl, Option.none_or]
  · simp only [if_neg hk, Option.none_or]

/-- A pair of a name that comes again need not be inserted. -/
theorem insertAll_drop (before : List (String × Value)) {after : List (String × Value)}
    {k : String} {w : Value} (h : (k, w) ∈ after) (v : Value) :
    insertAll [] (before ++ (k, v) :: after) = insertAll [] (before ++ after) := by
  refine insertAll_congr fun name => ?_
  simp only [List.reverse_append, List.reverse_cons, List.append_assoc, List.lookup_append,
    lookup_singleton]
  by_cases hk : name = k
  · have hlater : (after.reverse.lookup name).isSome :=
      List.lookup_isSome_iff.mpr ⟨(k, w), List.mem_reverse.mpr h, beq_iff_eq.mpr hk⟩
    rw [Option.or_of_isSome hlater, Option.or_of_isSome hlater]
  · rw [if_neg hk, Option.none_or]

namespace Tree

theorem plain_array (ts : List Tree) : (array ts).plain = .array (ts.map plain) := by
  rw [plain, plainItems_eq_map]

theorem plain_object (ms : List (String × Tree)) :
    (object ms).plain = .object (insertAll [] (ms.map fun m => (m.1, m.2.plain))) := by
  rw [plain, plainMembers_eq_map]

theorem Same.plain_eq {s t : Tree} (h : s.Same t) : s.plain = t.plain := by
  induction h with
  | refl => rfl
  | symm _ ih => exact ih.symm
  | trans _ _ ih ih' => exact ih.trans ih'
  | item _ ih =>
    rw [plain_array, plain_array, List.map_append, List.map_append, List.map_cons, List.map_cons, ih]
  | member _ ih =>
    rw [plain_object, plain_object, List.map_append, List.map_append, List.map_cons, List.map_cons,
      ih]
  | swap hne =>
    rw [plain_object, plain_object, List.map_append, List.map_append]
    exact congrArg Value.object (insertAll_swap _ _ hne)
  | @drop before after name s t _ _ hlater =>
    have hmem : (name, t.plain) ∈ after.map fun m => (m.1, m.2.plain) :=
      List.mem_map.mpr ⟨(name, t), hlater, rfl⟩
    rw [plain_object, plain_object, List.map_append, List.map_append]
    exact congrArg Value.object (insertAll_drop _ hmem s.plain)

end Tree

/-! ### What is read -/

/-- A text without `embeddingName` has its plain value, or none when a number is too large. -/
theorem read_eq_ok_iff_plain {body : List UInt8} {t : Tree}
    (htext : IsElement (Utf8.decodeLossy body) t) (hname : ¬ t.HasName embeddingName)
    (hnesting : t.nesting ≤ maxDepth) {v : Value} :
    read body = .ok v ↔ ¬ t.TooLarge ∧ v = t.plain := by
  have hplain : ¬ t.TooLarge → read body = .ok t.plain := fun hsize =>
    read_eq_ok_iff.mpr ⟨(nestingDepth_of_isElement htext).trans_le hnesting, t, htext,
      t.denotes_plain hname hsize⟩
  constructor
  · intro hread
    obtain ⟨-, s, hs, hdenotes⟩ := read_eq_ok_iff.mp hread
    rw [hs.unique htext] at hdenotes
    have hsize : ¬ t.TooLarge := fun hlarge => hlarge.flaw.not_denotes v hdenotes
    rw [hplain hsize] at hread
    exact ⟨hsize, (Except.ok.inj hread).symm⟩
  · rintro ⟨hsize, rfl⟩
    exact hplain hsize

/-- Canonical octets only depend on the value that is read, if one is. -/
theorem normalize_congr {a b : List UInt8} (h : ∀ v, read a = .ok v ↔ read b = .ok v) :
    normalize a = normalize b := by
  cases ha : read a with
  | ok v => rw [normalize_of_read ha, normalize_of_read ((h v).mp ha)]
  | error r =>
    cases hb : read b with
    | ok v =>
      rw [(h v).mpr hb] at ha
      cases ha
    | error r' => rw [normalize_of_error ha, normalize_of_error hb]

/-- **Canonical octets forget presentation.** Two texts that do not nest too deeply, and in which no
member is named `embeddingName`, have the same canonical octets when their trees are the same: when
they differ in blanks, in the way in which characters are written in strings, in the order of
members of different names, and in members that denote something and come again. -/
theorem normalize_eq_of_same {a b : List UInt8} {s t : Tree}
    (ha : IsElement (Utf8.decodeLossy a) s) (hb : IsElement (Utf8.decodeLossy b) t)
    (hsame : s.Same t)
    (hs : ¬ s.HasName embeddingName) (ht : ¬ t.HasName embeddingName)
    (hsdeep : s.nesting ≤ maxDepth) (htdeep : t.nesting ≤ maxDepth) :
    normalize a = normalize b := by
  refine normalize_congr fun v => ?_
  rw [read_eq_ok_iff_plain ha hs hsdeep, read_eq_ok_iff_plain hb ht htdeep, hsame.tooLarge_iff,
    hsame.plain_eq]

theorem normalize_eq_of_same_members :
    let a := Utf8.encode "\x7b\"b\":[1,\"\\u00e9\"],\"a\":true,\"b\":null\x7d".toList
    let b := Utf8.encode " \x7b \"b\" : null, \"\\u0061\" : true \x7d".toList
    let s : Tree := .object [("b", .array [.number ⟨false, ['1'], none, none⟩, .string "é"]),
      ("a", .boolean true), ("b", .null)]
    let t : Tree := .object [("b", .null), ("a", .boolean true)]
    IsElement (Utf8.decodeLossy a) s ∧ IsElement (Utf8.decodeLossy b) t ∧ s.Same t ∧
      ¬ s.HasName embeddingName ∧ ¬ t.HasName embeddingName ∧
      s.nesting ≤ maxDepth ∧ t.nesting ≤ maxDepth ∧ normalize a = normalize b := by
  intro a b s t
  have ha : IsElement (Utf8.decodeLossy a) s := by
    rw [Utf8.decodeLossy_encode]
    exact Tree.parse?_eq_some_iff.mp rfl
  have hb : IsElement (Utf8.decodeLossy b) t := by
    rw [Utf8.decodeLossy_encode]
    exact Tree.parse?_eq_some_iff.mp rfl
  have hone : (Numeral.mk false ['1'] none none).Denotes (.integer 1) :=
    Numeral.number?_eq_some_iff.mp (by decide)
  have hdropped : (Tree.array [.number ⟨false, ['1'], none, none⟩, .string "é"]).Denotes
      (.array [.number (.integer 1), .string "é"]) :=
    .array (.cons (.number hone) (.cons .string .nil))
  have hsame : s.Same t :=
    .trans (@Tree.Same.drop [] [("a", .boolean true), ("b", .null)] _ _ .null _ hdropped (by simp))
      (@Tree.Same.swap [] [] _ _ (by decide))
  have hs : ¬ s.HasName embeddingName := by
    simp only [s, Tree.hasName_object_iff, Tree.hasName_array_iff, List.mem_cons,
      List.not_mem_nil, or_false, exists_eq_or_imp, exists_eq_left, embeddingName, not_or]
    exact ⟨⟨by decide, Tree.not_hasName_of_nesting rfl, Tree.not_hasName_of_nesting rfl⟩,
      ⟨by decide, Tree.not_hasName_of_nesting rfl⟩, by decide, Tree.not_hasName_of_nesting rfl⟩
  have ht : ¬ t.HasName embeddingName := by
    simp only [t, Tree.hasName_object_iff, List.mem_cons, List.not_mem_nil, or_false,
      exists_eq_or_imp, exists_eq_left, embeddingName, not_or]
    exact ⟨⟨by decide, Tree.not_hasName_of_nesting rfl⟩, by decide, Tree.not_hasName_of_nesting rfl⟩
  have hdepth : 2 ≤ maxDepth := by decide
  have hsdeep : s.nesting ≤ maxDepth := Nat.le_trans (by decide) hdepth
  have htdeep : t.nesting ≤ maxDepth := Nat.le_trans (by decide) hdepth
  exact ⟨ha, hb, hsame, hs, ht, hsdeep, htdeep,
    normalize_eq_of_same ha hb hsame hs ht hsdeep htdeep⟩

end HttpEcho.Json
