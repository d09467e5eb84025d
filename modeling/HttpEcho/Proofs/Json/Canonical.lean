import HttpEcho.Proofs.Json.RoundTrip

/-! When canonical octets are canonical.

Canonical octets of a body need not be left alone when they are read again. A binary64 number can
be written as a numeral that is converted to another number; an object whose least name is
`embeddingName` denotes no value, though it denoted one while another member came first; and an
embedded text can take its value to a depth at which its octets are refused.
`normalize_normalize_iff` says that this is all: a body's canonical octets are canonical exactly when
nothing of the kind is in its value. -/
namespace HttpEcho.Json

open Grammar Value

/-! ### What was read -/

/-- What reading gives, as far as one value alone goes: integers fit 64 bits and objects are maps. -/
def Value.IsRead : Value → Prop
  | .number (.integer i) => -2 ^ 63 ≤ i ∧ i ≤ 2 ^ 64 - 1
  | .object ms => Ascending ms
  | _ => True

mutual

theorem Tree.Denotes.isRead {t : Tree} {v : Value} : t.Denotes v → ∀ u, Part u v → u.IsRead
  | .null, u, hu => by
    rw [Part.null_iff.mp hu]
    exact True.intro
  | .boolean, u, hu => by
    rw [Part.boolean_iff.mp hu]
    exact True.intro
  | .number hx, u, hu => by
    rw [Part.number_iff.mp hu]
    cases hx with
    | exact hi => exact ⟨hi.lower, hi.upper⟩
    | converted => exact True.intro
  | .string, u, hu => by
    rw [Part.string_iff.mp hu]
    exact True.intro
  | .array hvs, u, hu => by
    rcases Part.array_iff.mp hu with rfl | ⟨v, hv, hu⟩
    · exact True.intro
    · exact Tree.ItemsDenote.isRead hvs v hv u hu
  | .object _ hps hmap, u, hu => by
    rcases Part.object_iff.mp hu with rfl | ⟨m, hm, hu⟩
    · exact hmap.ascending
    · exact Tree.MembersDenote.isRead hps m (hmap.subset m hm) u hu
  | .embedding _ _ hv, u, hu => Tree.Denotes.isRead hv u hu

theorem Tree.ItemsDenote.isRead {ts : List Tree} {vs : List Value} : Tree.ItemsDenote ts vs →
    ∀ v ∈ vs, ∀ u, Part u v → u.IsRead
  | .nil, _, hv, _, _ => by cases hv
  | .cons h hrest, v, hv, u, hu => by
    rcases List.mem_cons.mp hv with he | hv
    · rw [he] at hu
      exact Tree.Denotes.isRead h u hu
    · exact Tree.ItemsDenote.isRead hrest v hv u hu

theorem Tree.MembersDenote.isRead {ms : List (String × Tree)} {ps : List (String × Value)} :
    Tree.MembersDenote ms ps → ∀ p ∈ ps, ∀ u, Part u p.2 → u.IsRead
  | .nil, _, hp, _, _ => by cases hp
  | .cons h hrest, p, hp, u, hu => by
    rcases List.mem_cons.mp hp with he | hp
    · rw [he] at hu
      exact Tree.Denotes.isRead h u hu
    · exact Tree.MembersDenote.isRead hrest p hp u hu

end

theorem Tree.MembersDenote.names {ms : List (String × Tree)} {ps : List (String × Value)} :
    Tree.MembersDenote ms ps → ps.map Prod.fst = ms.map Prod.fst
  | .nil => rfl
  | .cons _ hrest => congrArg _ (Tree.MembersDenote.names hrest)

/-- Ordinary pairs have a map that is more than an embedded text. -/
theorem IsMapOf.ne_embedding {ps vs : List (String × Value)} (h : IsMapOf ps vs)
    (hps : Ordinary ps) (s : String) : memberTrees vs ≠ [(embeddingName, .string s)] := by
  intro htrees
  have hnames : vs.map Prod.fst = [embeddingName] := by
    rw [← names_memberTrees, htrees]
    rfl
  cases ps with
  | nil =>
    have hnil : vs = [] := List.eq_nil_iff_forall_not_mem.mpr fun p hp => by cases h.subset p hp
    rw [hnil] at hnames
    cases hnames
  | cons p ps =>
    have hmem := h.mem_names (List.mem_cons_self (a := p) (l := ps))
    rw [hnames, List.mem_singleton] at hmem
    exact hps p rfl hmem

/-- No value is an object that only holds an embedded text, which stands for the text's value. -/
theorem Tree.Denotes.tree_ne {t : Tree} {v : Value} : t.Denotes v → ∀ s,
    v.tree ≠ .object [(embeddingName, .string s)]
  | .null, _ => fun h => by cases h
  | .boolean, _ => fun h => by cases h
  | .number _, _ => fun h => by cases h
  | .string, _ => fun h => by cases h
  | .array _, _ => fun h => by cases h
  | .object hfirst hps hmap, s => fun h =>
    hmap.ne_embedding (hfirst.of_names hps.names) s (Tree.object.inj h)
  | .embedding _ _ hv, s => Tree.Denotes.tree_ne hv s

/-! ### What is written as it was -/

/-- A value that is read from its text as one with the same text, as far as it alone goes. -/
def Value.IsStable : Value → Prop
  | .number (.real x) =>
    ∃ y, (Number.real x).numeral.Denotes y ∧ y.text = (Number.real x).text
  | .object ms => Ordinary ms
  | _ => True

mutual

theorem Value.exists_same_chars : (v : Value) → (∀ u, Part u v → u.IsRead) →
    (∀ u, Part u v → u.IsStable) → ∃ w, v.tree.Denotes w ∧ w.chars = v.chars
  | .null, _, _ => ⟨_, .null, rfl⟩
  | .boolean _, _, _ => ⟨_, .boolean, rfl⟩
  | .number (.integer i), hread, _ => by
    obtain ⟨hlower, hupper⟩ := hread _ .self
    exact ⟨_, .number (Number.denotes_integer hlower hupper), rfl⟩
  | .number (.real x), _, hstable => by
    obtain ⟨y, hy, htext⟩ := hstable _ .self
    exact ⟨_, .number hy, htext⟩
  | .string _, _, _ => ⟨_, .string, rfl⟩
  | .array vs, hread, hstable => by
    obtain ⟨ws, hws, hchars⟩ := Value.exists_same_itemsChars vs
      (fun v hv u hu => hread u (.item hv hu)) fun v hv u hu => hstable u (.item hv hu)
    refine ⟨_, .array hws, ?_⟩
    rw [Value.chars, Value.chars, hchars]
  | .object ms, hread, hstable => by
    have hascending : Ascending ms := hread _ .self
    have hordinary : Ordinary ms := hstable _ .self
    obtain ⟨ps, hps, hchars⟩ := Value.exists_same_membersChars ms
      (fun m hm u hu => hread u (.member hm hu)) fun m hm u hu => hstable u (.member hm hu)
    have hnames : ps.map Prod.fst = ms.map Prod.fst := hps.names.trans (names_memberTrees ms)
    refine ⟨_, .object (hordinary.of_names (names_memberTrees ms)) hps
      (hascending.of_names hnames).isMapOf, ?_⟩
    rw [Value.chars, Value.chars, hchars]

theorem Value.exists_same_itemsChars : (vs : List Value) → (∀ v ∈ vs, ∀ u, Part u v → u.IsRead) →
    (∀ v ∈ vs, ∀ u, Part u v → u.IsStable) → ∃ ws, Tree.ItemsDenote (itemTrees vs) ws ∧
      ∀ first, itemsChars first ws = itemsChars first vs
  | [], _, _ => ⟨[], .nil, fun _ => rfl⟩
  | v :: vs, hread, hstable => by
    obtain ⟨w, hw, hchars⟩ := Value.exists_same_chars v (hread v List.mem_cons_self)
      (hstable v List.mem_cons_self)
    obtain ⟨ws, hws, hrest⟩ := Value.exists_same_itemsChars vs
      (fun u hu => hread u (List.mem_cons_of_mem _ hu))
      fun u hu => hstable u (List.mem_cons_of_mem _ hu)
    refine ⟨w :: ws, .cons hw hws, fun first => ?_⟩
    rw [itemsChars, itemsChars, hchars, hrest]

theorem Value.exists_same_membersChars : (ms : List (String × Value)) →
    (∀ m ∈ ms, ∀ u, Part u m.2 → u.IsRead) → (∀ m ∈ ms, ∀ u, Part u m.2 → u.IsStable) →
      ∃ ps, Tree.MembersDenote (memberTrees ms) ps ∧
        ∀ first, membersChars first ps = membersChars first ms
  | [], _, _ => ⟨[], .nil, fun _ => rfl⟩
  | (name, v) :: ms, hread, hstable => by
    obtain ⟨w, hw, hchars⟩ := Value.exists_same_chars v (hread (name, v) List.mem_cons_self)
      (hstable (name, v) List.mem_cons_self)
    obtain ⟨ps, hps, hrest⟩ := Value.exists_same_membersChars ms
      (fun m hm => hread m (List.mem_cons_of_mem _ hm))
      fun m hm => hstable m (List.mem_cons_of_mem _ hm)
    refine ⟨(name, w) :: ps, .cons hw hps, fun first => ?_⟩
    rw [membersChars, membersChars, hchars, hrest]

end

mutual

theorem Value.isStable_of_tree_eq : (v : Value) → (∀ u, Part u v → u.IsRead) → ∀ {w : Value},
    v.tree.Denotes w → w.tree = v.tree → ∀ u, Part u v → u.IsStable
  | .null, _, _, _, _, u, hu => by
    rw [Part.null_iff.mp hu]
    exact True.intro
  | .boolean _, _, _, _, _, u, hu => by
    rw [Part.boolean_iff.mp hu]
    exact True.intro
  | .number (.integer _), _, _, _, _, u, hu => by
    rw [Part.number_iff.mp hu]
    exact True.intro
  | .number (.real x), _, _, .number (x := y) hy, htree, u, hu => by
    rw [Part.number_iff.mp hu]
    refine ⟨y, hy, ?_⟩
    rw [← y.text_numeral, ← (Number.real x).text_numeral, Tree.number.inj htree]
  | .string _, _, _, _, _, u, hu => by
    rw [Part.string_iff.mp hu]
    exact True.intro
  | .array vs, hread, _, .array hws, htree, u, hu => by
    rcases Part.array_iff.mp hu with rfl | ⟨v, hv, hu⟩
    · exact True.intro
    · exact Value.isStable_of_itemTrees_eq vs (fun v hv u hu => hread u (.item hv hu)) hws
        (Tree.array.inj htree) v hv u hu
  | .object ms, hread, w, hw, htree, u, hu => by
    have hascending : Ascending ms := hread _ .self
    rw [Value.tree] at hw htree
    generalize htrees : memberTrees ms = trees at hw htree
    cases hw with
    | object hfirst hps hmap =>
      subst htrees
      have hnames := names_memberTrees ms
      have hps_ascending := hascending.of_names (hps.names.trans hnames)
      rw [← hps_ascending.isMapOf.unique hmap] at htree
      rcases Part.object_iff.mp hu with rfl | ⟨m, hm, hu⟩
      · exact hfirst.of_names hnames.symm
      · exact Value.isStable_of_memberTrees_eq ms (fun m hm u hu => hread u (.member hm hu)) hps
          (Tree.object.inj htree) m hm u hu
    | embedding _ _ hv => exact absurd htree (hv.tree_ne _)

theorem Value.isStable_of_itemTrees_eq : (vs : List Value) →
    (∀ v ∈ vs, ∀ u, Part u v → u.IsRead) → ∀ {ws : List Value},
      Tree.ItemsDenote (itemTrees vs) ws → itemTrees ws = itemTrees vs →
        ∀ v ∈ vs, ∀ u, Part u v → u.IsStable
  | [], _, _, _, _, _, hv, _, _ => by cases hv
  | v :: vs, hread, _, .cons hw hws, htrees, x, hx, u, hu => by
    obtain ⟨htree, hrest⟩ := List.cons.inj htrees
    rcases List.mem_cons.mp hx with he | hx
    · rw [he] at hu
      exact Value.isStable_of_tree_eq v (hread v List.mem_cons_self) hw htree u hu
    · exact Value.isStable_of_itemTrees_eq vs (fun u hu => hread u (List.mem_cons_of_mem _ hu)) hws
        hrest x hx u hu

theorem Value.isStable_of_memberTrees_eq : (ms : List (String × Value)) →
    (∀ m ∈ ms, ∀ u, Part u m.2 → u.IsRead) → ∀ {ps : List (String × Value)},
      Tree.MembersDenote (memberTrees ms) ps → memberTrees ps = memberTrees ms →
        ∀ m ∈ ms, ∀ u, Part u m.2 → u.IsStable
  | [], _, _, _, _, _, hm, _, _ => by cases hm
  | (name, v) :: ms, hread, _, .cons hw hps, htrees, x, hx, u, hu => by
    obtain ⟨htree, hrest⟩ := List.cons.inj htrees
    rcases List.mem_cons.mp hx with he | hx
    · rw [he] at hu
      exact Value.isStable_of_tree_eq v (hread (name, v) List.mem_cons_self) hw
        (Prod.mk.inj htree).2 u hu
    · exact Value.isStable_of_memberTrees_eq ms (fun m hm => hread m (List.mem_cons_of_mem _ hm))
        hps hrest x hx u hu

end

/-! ### Canonical octets -/

/-- What keeps a value's octets as they are when they are read and written again. -/
structure Value.Stable (v : Value) : Prop where
  nesting : v.nesting ≤ maxDepth
  /-- Every binary64 number is read as one that is written in the same way. -/
  numbers : ∀ x, Part (.number (.real x)) v →
    ∃ y, (Number.real x).numeral.Denotes y ∧ y.text = (Number.real x).text
  /-- The least name of an object is not `embeddingName`. -/
  ordinary : ∀ ms, Part (.object ms) v → Ordinary ms

theorem Value.Stable.isStable {v : Value} (h : v.Stable) : ∀ u, Part u v → u.IsStable := by
  intro u hu
  cases u with
  | number x =>
    cases x with
    | integer i => exact True.intro
    | real x => exact h.numbers x hu
  | object ms => exact h.ordinary ms hu
  | null => exact True.intro
  | boolean => exact True.intro
  | string => exact True.intro
  | array => exact True.intro

theorem normalize_of_error {body : List UInt8} {r : Rejection} (h : read body = .error r) :
    normalize body = Value.null.encode := by
  unfold normalize
  rw [h]

theorem read_encode_null : read Value.null.encode = .ok .null :=
  read_encode_iff.mpr ⟨Nat.zero_le _, .null⟩

theorem normalize_encode_iff {body : List UInt8} {v : Value} (h : read body = .ok v) :
    normalize v.encode = v.encode ↔ v.Stable := by
  obtain ⟨-, t, -, hv⟩ := read_eq_ok_iff.mp h
  constructor
  · intro hsame
    cases hread : read v.encode with
    | error r =>
      -- Then the octets are those of null, which would have been read.
      rw [normalize_of_error hread] at hsame
      rw [← hsame, read_encode_null] at hread
      cases hread
    | ok w =>
      obtain ⟨hnesting, hw⟩ := read_encode_iff.mp hread
      rw [normalize_of_read hread] at hsame
      have hstable := v.isStable_of_tree_eq hv.isRead hw (tree_eq_of_encode_eq hsame)
      exact ⟨hnesting, fun x hx => hstable _ hx, fun ms hms => hstable _ hms⟩
  · intro hstable
    obtain ⟨w, hw, hchars⟩ := v.exists_same_chars hv.isRead hstable.isStable
    rw [normalize_of_read (read_encode_iff.mpr ⟨hstable.nesting, hw⟩), encode_eq, encode_eq, hchars]

/-- **Canonical octets are canonical exactly when they say what was read**: normalizing twice is
normalizing once just for the bodies that have no value, or a stable one. -/
theorem normalize_normalize_iff (body : List UInt8) :
    normalize (normalize body) = normalize body ↔ ∀ v, read body = .ok v → v.Stable := by
  cases h : read body with
  | error r =>
    rw [normalize_of_error h, normalize_of_read read_encode_null]
    exact iff_of_true rfl fun v hv => by cases hv
  | ok v =>
    rw [normalize_of_read h, normalize_encode_iff h]
    constructor
    · intro hstable w hw
      cases hw
      exact hstable
    · exact fun hall => hall v rfl

/-- An object that is read as it stands, because another name is before `embeddingName`, and that
its canonical octets no longer denote, because no other name is. -/
theorem normalize_normalize_embedding_ne (s : String) :
    let body := (Value.object [("a", .null), (embeddingName, .string s)]).encode
    normalize (normalize body) ≠ normalize body := by
  intro body hsame
  have hlt : embeddingName < "a" := by decide
  have hmap : IsMapOf [("a", .null), (embeddingName, .string s)]
      [(embeddingName, .string s), ("a", .null)] := by
    refine isMapOf_iff.mpr ?_
    rw [insertAll, List.foldl_cons, List.foldl_cons, List.foldl_nil, insert, insert,
      if_neg (ne_of_lt hlt), if_pos hlt]
  have hordinary : Ordinary [("a", Tree.null), (embeddingName, .string s)] := by
    intro m hm
    cases hm
    decide
  have hread : read body = .ok (.object [(embeddingName, .string s), ("a", .null)]) :=
    read_encode_iff.mpr
      ⟨Nat.le_trans (by simp [nesting, nestingMembers]) (by decide : 1 ≤ maxDepth),
        .object hordinary (.cons .null (.cons .string .nil)) hmap⟩
  exact ((normalize_normalize_iff body).mp hsame _ hread).ordinary _ .self _ rfl rfl

end HttpEcho.Json
