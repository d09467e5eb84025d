import HttpEcho.Json.Denotation
import HttpEcho.Proofs.Json.Nesting
import HttpEcho.Proofs.Json.Numbers
import HttpEcho.Proofs.Json.Objects

/-! What a JSON text means, as a relation, and that reading finds it.

`Tree.Denotes` gives a tree its value without computing it: items keep their order, and an object is
the map of its members. An object whose first name is `embeddingName` stands for the text in it, and
for nothing if it holds anything else.

The main result, `read_spec`, says that a body is read exactly when it does not nest too deeply
and its text is of the grammar and denotes a value, which is then the one read; and it names the
two ways in which a text of the grammar can denote nothing. -/
namespace HttpEcho.Json

open Grammar

/-- Members that stand for themselves: the first name is not `embeddingName`. -/
def Ordinary {α : Type} (ms : List (String × α)) : Prop :=
  ∀ m ∈ ms.head?, m.1 ≠ embeddingName

theorem Ordinary.of_names {α β : Type} {ms : List (String × α)} {ns : List (String × β)}
    (h : Ordinary ms) (hnames : ns.map Prod.fst = ms.map Prod.fst) : Ordinary ns := by
  intro n hn
  have hfirst : (ns.map Prod.fst).head? = some n.1 := by
    rw [List.head?_map, Option.mem_def.mp hn]
    rfl
  rw [hnames, List.head?_map, Option.map_eq_some_iff] at hfirst
  obtain ⟨m, hm, he⟩ := hfirst
  rw [← he]
  exact h m hm

mutual

/-- The value that a tree denotes. -/
inductive Tree.Denotes : Tree → Value → Prop where
  | null : Denotes .null .null
  | boolean {b} : Denotes (.boolean b) (.boolean b)
  | number {n x} : n.Denotes x → Denotes (.number n) (.number x)
  | string {s} : Denotes (.string s) (.string s)
  | array {ts vs} : ItemsDenote ts vs → Denotes (.array ts) (.array vs)
  | object {ms ps vs} : Ordinary ms → MembersDenote ms ps →
      IsMapOf ps vs → Denotes (.object ms) (.object vs)
  | embedding {text t v} : IsElement text.toList t → t.nesting ≤ maxEmbeddedDepth → Denotes t v →
      Denotes (.object [(embeddingName, .string text)]) v

/-- Items denote values in their order. -/
inductive Tree.ItemsDenote : List Tree → List Value → Prop where
  | nil : ItemsDenote [] []
  | cons {t v ts vs} : Denotes t v → ItemsDenote ts vs → ItemsDenote (t :: ts) (v :: vs)

/-- Members denote values under their names. -/
inductive Tree.MembersDenote : List (String × Tree) → List (String × Value) → Prop where
  | nil : MembersDenote [] []
  | cons {name t v ms ps} : Denotes t v → MembersDenote ms ps →
      MembersDenote ((name, t) :: ms) ((name, v) :: ps)

end

/-- The value of an embedded text. -/
def EmbeddedDenotes (text : String) (v : Value) : Prop :=
  ∃ t, IsElement text.toList t ∧ t.nesting ≤ maxEmbeddedDepth ∧ t.Denotes v

theorem Content.ofMembers_ordinary {name : String} (h : name ≠ embeddingName) (t : Tree)
    (rest : List (String × Tree)) : Content.ofMembers ((name, t) :: rest) = .members :=
  if_neg h

theorem Content.ofMembers_special (t : Tree) (rest : List (String × Tree)) :
    Content.ofMembers ((embeddingName, t) :: rest) =
      match t, rest with
      | .string text, [] => .embedding text
      | _, _ => .malformed := by
  unfold Content.ofMembers
  exact if_pos rfl

theorem Content.ofMembers_members {ms : List (String × Tree)} :
    Content.ofMembers ms = .members ↔ Ordinary ms := by
  cases ms with
  | nil => exact iff_of_true rfl fun m hm => (by cases hm)
  | cons m rest =>
    obtain ⟨name, t⟩ := m
    by_cases hname : name = embeddingName
    · subst hname
      rw [Content.ofMembers_special]
      refine iff_of_false (fun h => ?_) fun h => h _ rfl rfl
      split at h <;> cases h
    · rw [Content.ofMembers_ordinary hname]
      refine iff_of_true rfl fun m hm => ?_
      cases hm
      exact hname

theorem Content.ofMembers_embedding {ms : List (String × Tree)} {text : String} :
    Content.ofMembers ms = .embedding text ↔ ms = [(embeddingName, .string text)] := by
  constructor
  · intro h
    cases ms with
    | nil => cases h
    | cons m rest =>
      obtain ⟨name, t⟩ := m
      by_cases hname : name = embeddingName
      · subst hname
        rw [Content.ofMembers_special] at h
        split at h
        · cases h
          rfl
        · cases h
      · rw [Content.ofMembers_ordinary hname] at h
        cases h
  · intro he
    subst he
    exact Content.ofMembers_special _ _

/-! ### What is read is denoted -/

variable {embedded : String → Option Value}

/-- Reading an embedded text gives only what the text denotes. -/
def Sound (embedded : String → Option Value) : Prop :=
  ∀ text v, embedded text = some v → EmbeddedDenotes text v

mutual

theorem Tree.denotes_of_value? (hsound : Sound embedded) : (t : Tree) → ∀ {v : Value},
    t.value? embedded = some v → t.Denotes v
  | .null, v, h => by
    cases h
    exact .null
  | .boolean b, v, h => by
    cases h
    exact .boolean
  | .number n, v, h => by
    obtain ⟨x, hx, rfl⟩ := Option.map_eq_some_iff.mp h
    exact .number (Numeral.number?_eq_some_iff.mp hx)
  | .string s, v, h => by
    cases h
    exact .string
  | .array ts, v, h => by
    obtain ⟨vs, hvs, rfl⟩ := Option.map_eq_some_iff.mp h
    obtain ⟨ws, hws, rfl⟩ := Tree.itemsDenote_of_items? hsound ts hvs
    exact .array hws
  | .object ms, v, h => by
    unfold Tree.value? at h
    cases hcontent : Content.ofMembers ms with
    | members =>
      rw [hcontent] at h
      obtain ⟨vs, hvs, rfl⟩ := Option.map_eq_some_iff.mp h
      obtain ⟨ps, hps, rfl⟩ := Tree.membersDenote_of_members? hsound ms hvs
      exact .object (Content.ofMembers_members.mp hcontent) hps (isMapOf_insertAll ps)
    | embedding text =>
      rw [hcontent] at h
      obtain ⟨t, ht, hnesting, hv⟩ := hsound _ _ h
      rw [Content.ofMembers_embedding.mp hcontent]
      exact .embedding ht hnesting hv
    | malformed =>
      rw [hcontent] at h
      cases h

theorem Tree.itemsDenote_of_items? (hsound : Sound embedded) : (ts : List Tree) →
    ∀ {known vs : List Value}, Tree.items? embedded known ts = some vs →
      ∃ ws, Tree.ItemsDenote ts ws ∧ vs = known.reverse ++ ws
  | [], known, vs, h => by
    cases h
    exact ⟨[], .nil, (List.append_nil _).symm⟩
  | t :: ts, known, vs, h => by
    unfold Tree.items? at h
    cases hv : t.value? embedded with
    | none =>
      rw [hv] at h
      cases h
    | some v =>
      rw [hv] at h
      obtain ⟨ws, hws, rfl⟩ := Tree.itemsDenote_of_items? hsound ts h
      refine ⟨v :: ws, .cons (Tree.denotes_of_value? hsound t hv) hws, ?_⟩
      rw [List.reverse_cons, List.append_assoc]
      rfl

theorem Tree.membersDenote_of_members? (hsound : Sound embedded) : (ms : List (String × Tree)) →
    ∀ {known vs : List (String × Value)}, Tree.members? embedded known ms = some vs →
      ∃ ps, Tree.MembersDenote ms ps ∧ vs = insertAll known ps
  | [], known, vs, h => by
    cases h
    exact ⟨[], .nil, rfl⟩
  | (name, t) :: ms, known, vs, h => by
    unfold Tree.members? at h
    cases hv : t.value? embedded with
    | none =>
      rw [hv] at h
      cases h
    | some v =>
      rw [hv] at h
      obtain ⟨ps, hps, rfl⟩ := Tree.membersDenote_of_members? hsound ms h
      exact ⟨(name, v) :: ps, .cons (Tree.denotes_of_value? hsound t hv) hps, rfl⟩

end

theorem readEmbedded_succ (n : Nat) (text : String) : readEmbedded (n + 1) text =
    if nestingDepth (Utf8.encode text.toList) ≤ maxEmbeddedDepth then
      (Tree.parse? text.toList).bind (·.value? (readEmbedded n))
    else none := by
  unfold readEmbedded
  by_cases h : nestingDepth (Utf8.encode text.toList) ≤ maxEmbeddedDepth
  · rw [if_pos h, (Option.guard_eq_some' ()).mpr h]
    rfl
  · rw [if_neg h, Option.eq_none_iff_forall_ne_some.mpr fun u hu => h ((Option.guard_eq_some' u).mp hu)]
    rfl

theorem sound_readEmbedded (bound : Nat) : Sound (readEmbedded bound) := by
  induction bound with
  | zero =>
    intro text v h
    cases h
  | succ n ih =>
    intro text v h
    rw [readEmbedded_succ] at h
    by_cases hdepth : nestingDepth (Utf8.encode text.toList) ≤ maxEmbeddedDepth
    · rw [if_pos hdepth] at h
      obtain ⟨t, ht, hv⟩ := Option.bind_eq_some_iff.mp h
      have helement := Tree.parse?_eq_some_iff.mp ht
      rw [nestingDepth_encode helement] at hdepth
      exact ⟨t, helement, hdepth, Tree.denotes_of_value? ih t hv⟩
    · rw [if_neg hdepth] at h
      cases h

/-! ### What is denoted is read

A string is shorter than the text that it stands in, by its quotes at least, so what is embedded
in a text of a given length is found with that length for a bound. -/

/-- Reading finds the value of every embedded text that is shorter than `n`. -/
def CompleteBelow (n : Nat) (embedded : String → Option Value) : Prop :=
  ∀ text v, text.length < n → EmbeddedDenotes text v → embedded text = some v

theorem Grammar.IsSpelling.length_pos {w : List Char} {c : Char} (h : IsSpelling w c) :
    0 < w.length := by
  cases h <;> simp

theorem Grammar.IsSpellings.length_le {w cs : List Char} (h : IsSpellings w cs) :
    cs.length ≤ w.length := by
  induction h with
  | nil => exact Nat.le_refl 0
  | cons hc _ ih =>
    have hpos := hc.length_pos
    rw [List.length_append, List.length_cons]
    omega

theorem Grammar.IsString.length_lt {w : List Char} {s : String} (h : IsString w s) :
    s.length < w.length := by
  obtain ⟨hw⟩ := h
  have hle := hw.length_le
  simp only [String.length_ofList, List.length_cons, List.length_append]
  omega

theorem Grammar.IsElement.string_length_lt {w : List Char} {s : String}
    (h : IsElement w (.string s)) : s.length < w.length := by
  obtain ⟨-, hw, -⟩ := h
  cases hw with
  | string hs =>
    have hlt := hs.length_lt
    simp only [List.length_append]
    omega

theorem Grammar.IsMembers.string_length_lt {w : List Char} {name s : String}
    (h : IsMembers w [(name, .string s)]) : s.length < w.length := by
  cases h with
  | one _ hs =>
    have hlt := hs.string_length_lt
    simp only [List.length_append, List.length_cons]
    omega
  | more _ _ hrest => cases hrest

mutual

theorem Grammar.IsValue.value? {n : Nat} (hcomplete : CompleteBelow n embedded) {w : List Char}
    {t : Tree} : IsValue w t → w.length ≤ n → ∀ {v}, t.Denotes v → t.value? embedded = some v
  | .null, _, _, .null => rfl
  | .true, _, _, .boolean => rfl
  | .false, _, _, .boolean => rfl
  | .number _, _, _, .number hx => by
    rw [Tree.value?, Numeral.number?_eq_some_iff.mpr hx]
    rfl
  | .string _, _, _, .string => rfl
  | .emptyArray _, _, _, .array .nil => rfl
  | .array h, hle, _, .array hvs => by
    rw [Tree.value?, IsItems.items? hcomplete h (by simp at hle; omega) hvs]
    rfl
  | .emptyObject _, _, _, .object _ .nil hmap => by
    rw [← isMapOf_iff.mp hmap]
    rfl
  | .object h, hle, _, .object hfirst hps hmap => by
    rw [Tree.value?, Content.ofMembers_members.mpr hfirst]
    simp only
    rw [IsMembers.members? hcomplete h (by simp at hle; omega) hps, isMapOf_iff.mp hmap]
    rfl
  | .object h, hle, _, .embedding ht hnesting hv => by
    have hlt := h.string_length_lt
    rw [Tree.value?, Content.ofMembers_embedding.mpr rfl]
    exact hcomplete _ _ (by simp at hle; omega) ⟨_, ht, hnesting, hv⟩

theorem Grammar.IsElement.value? {n : Nat} (hcomplete : CompleteBelow n embedded) {w : List Char}
    {t : Tree} : IsElement w t → w.length ≤ n → ∀ {v}, t.Denotes v → t.value? embedded = some v
  | .mk _ h _, hle, _, hv => IsValue.value? hcomplete h (by simp at hle; omega) hv

theorem Grammar.IsItems.items? {n : Nat} (hcomplete : CompleteBelow n embedded) {w : List Char}
    {ts : List Tree} : IsItems w ts → w.length ≤ n → ∀ {known vs}, Tree.ItemsDenote ts vs →
      Tree.items? embedded known ts = some (known.reverse ++ vs)
  | .one h, hle, known, _, .cons (v := v) hv .nil => by
    rw [Tree.items?, IsElement.value? hcomplete h hle hv]
    exact congrArg some List.reverse_cons
  | .more h hrest, hle, known, _, .cons hv hvs => by
    rw [List.length_append, List.length_cons] at hle
    rw [Tree.items?, IsElement.value? hcomplete h (by omega) hv]
    simp only
    rw [IsItems.items? hcomplete hrest (by omega) hvs, List.reverse_cons, List.append_assoc]
    rfl

theorem Grammar.IsMembers.members? {n : Nat} (hcomplete : CompleteBelow n embedded)
    {w : List Char} {ms : List (String × Tree)} : IsMembers w ms → w.length ≤ n →
      ∀ {known ps}, Tree.MembersDenote ms ps →
        Tree.members? embedded known ms = some (insertAll known ps)
  | .one _ h, hle, known, _, .cons hv .nil => by
    rw [List.length_append, List.length_cons] at hle
    rw [Tree.members?, IsElement.value? hcomplete h (by omega) hv]
    rfl
  | .more _ h hrest, hle, known, _, .cons hv hps => by
    rw [List.length_append, List.length_cons, List.length_append, List.length_cons] at hle
    rw [Tree.members?, IsElement.value? hcomplete h (by omega) hv]
    exact IsMembers.members? hcomplete hrest (by omega) hps

end

theorem completeBelow_readEmbedded (bound : Nat) : CompleteBelow bound (readEmbedded bound) := by
  induction bound with
  | zero =>
    intro text v hlt
    exact absurd hlt (Nat.not_lt_zero _)
  | succ n ih =>
    intro text v hlt hdenotes
    obtain ⟨t, ht, hnesting, hv⟩ := hdenotes
    have hle : text.toList.length ≤ n := Nat.le_of_lt_succ hlt
    rw [readEmbedded_succ, nestingDepth_encode ht, if_pos hnesting, Tree.parse?_eq_some_iff.mpr ht]
    exact IsElement.value? ih ht hle hv

theorem read_eq_ok_iff {body : List UInt8} {v : Value} : read body = .ok v ↔
    nestingDepth body ≤ maxDepth ∧ ∃ t, IsElement (Utf8.decodeLossy body) t ∧ t.Denotes v := by
  unfold read
  by_cases hdepth : maxDepth < nestingDepth body
  · simp only [if_pos hdepth]
    exact iff_of_false (fun h => (by cases h)) fun h => absurd h.1 (Nat.not_le.mpr hdepth)
  simp only [if_neg hdepth]
  generalize Utf8.decodeLossy body = text
  constructor
  · intro h
    refine ⟨Nat.not_lt.mp hdepth, ?_⟩
    cases hvalue : (Tree.parse? text).bind (·.value? (readEmbedded text.length)) with
    | none =>
      rw [hvalue] at h
      cases h
    | some w =>
      rw [hvalue] at h
      cases h
      obtain ⟨t, ht, hv⟩ := Option.bind_eq_some_iff.mp hvalue
      exact ⟨t, Tree.parse?_eq_some_iff.mp ht,
        Tree.denotes_of_value? (sound_readEmbedded _) t hv⟩
  · intro hread
    obtain ⟨-, t, ht, hv⟩ := hread
    have hvalue : t.value? (readEmbedded text.length) = some v :=
      ht.value? (completeBelow_readEmbedded _) (Nat.le_refl _) hv
    rw [Tree.parse?_eq_some_iff.mpr ht, Option.bind_some, hvalue]

/-! ### What denotes nothing -/

/-- An object whose first name is `embeddingName` denotes what the text in it does, and nothing if
it holds anything but one text. -/
theorem Tree.denotes_embedding_iff {t : Tree} {rest : List (String × Tree)} {v : Value} :
    (Tree.object ((embeddingName, t) :: rest)).Denotes v ↔
      rest = [] ∧ ∃ text, t = .string text ∧ EmbeddedDenotes text v := by
  constructor
  · intro h
    cases h with
    | object hfirst => exact absurd rfl (hfirst _ rfl)
    | embedding ht hnesting hv => exact ⟨rfl, _, rfl, _, ht, hnesting, hv⟩
  · intro hembedded
    obtain ⟨rfl, text, rfl, s, hs, hnesting, hv⟩ := hembedded
    exact .embedding hs hnesting hv

/-- What keeps a tree from denoting a value. -/
inductive Tree.Flaw : Tree → Prop where
  | overflow {n} : n.Overflows → Flaw (.number n)
  | embedding {t rest} : ¬ (rest = [] ∧ ∃ text v, t = .string text ∧ EmbeddedDenotes text v) →
      Flaw (.object ((embeddingName, t) :: rest))
  | item {t ts} : t ∈ ts → Flaw t → Flaw (.array ts)
  | member {name t ms} : (name, t) ∈ ms → Flaw t → Flaw (.object ms)

theorem Tree.ItemsDenote.of_mem {ts : List Tree} {vs : List Value} : Tree.ItemsDenote ts vs →
    ∀ t ∈ ts, ∃ v, t.Denotes v
  | .nil, _, ht => by cases ht
  | .cons hv hvs, t, ht => by
    rcases List.mem_cons.mp ht with he | ht
    · rw [he]
      exact ⟨_, hv⟩
    · exact Tree.ItemsDenote.of_mem hvs t ht

theorem Tree.MembersDenote.of_mem {ms : List (String × Tree)} {ps : List (String × Value)} :
    Tree.MembersDenote ms ps → ∀ m ∈ ms, ∃ v, m.2.Denotes v
  | .nil, _, hm => by cases hm
  | .cons hv hps, m, hm => by
    rcases List.mem_cons.mp hm with he | hm
    · rw [he]
      exact ⟨_, hv⟩
    · exact Tree.MembersDenote.of_mem hps m hm

theorem Tree.Flaw.not_denotes {t : Tree} (h : t.Flaw) (v : Value) : ¬ t.Denotes v := by
  induction h generalizing v with
  | overflow hn =>
    intro hv
    cases hv
    rename_i hx
    exact Numeral.exists_denotes_iff.mp ⟨_, hx⟩ hn
  | embedding hne =>
    intro hv
    obtain ⟨hrest, text, htext, hdenotes⟩ := Tree.denotes_embedding_iff.mp hv
    exact hne ⟨hrest, text, v, htext, hdenotes⟩
  | item hmem _ ih =>
    intro hv
    cases hv with
    | array hvs =>
      obtain ⟨w, hw⟩ := hvs.of_mem _ hmem
      exact ih w hw
  | member hmem hflaw ih =>
    intro hv
    cases hv with
    | object _ hps _ =>
      obtain ⟨w, hw⟩ := hps.of_mem _ hmem
      exact ih w hw
    | embedding =>
      cases List.mem_singleton.mp hmem
      cases hflaw

mutual

theorem Tree.exists_denotes : (t : Tree) → ¬ t.Flaw → ∃ v, t.Denotes v
  | .null, _ => ⟨_, .null⟩
  | .boolean _, _ => ⟨_, .boolean⟩
  | .string _, _ => ⟨_, .string⟩
  | .number n, h => by
    obtain ⟨x, hx⟩ := Numeral.exists_denotes_iff.mpr fun hn => h (.overflow hn)
    exact ⟨_, .number hx⟩
  | .array ts, h => by
    obtain ⟨vs, hvs⟩ := Tree.exists_itemsDenote ts fun t ht hflaw => h (.item ht hflaw)
    exact ⟨_, .array hvs⟩
  | .object [], _ => ⟨_, .object (fun m hm => (by cases hm)) .nil .nil⟩
  | .object ((name, t) :: rest), h => by
    by_cases hname : name = embeddingName
    · subst hname
      obtain ⟨hrest, text, v, ht, hv⟩ := not_not.mp fun hne => h (.embedding hne)
      exact ⟨v, Tree.denotes_embedding_iff.mpr ⟨hrest, text, ht, hv⟩⟩
    · obtain ⟨ps, hps⟩ := Tree.exists_membersDenote ((name, t) :: rest) fun m hm hflaw =>
        h (.member hm hflaw)
      refine ⟨_, .object (fun m hm => ?_) hps (isMapOf_insertAll ps)⟩
      cases hm
      exact hname

theorem Tree.exists_itemsDenote : (ts : List Tree) → (∀ t ∈ ts, ¬ t.Flaw) →
    ∃ vs, Tree.ItemsDenote ts vs
  | [], _ => ⟨[], .nil⟩
  | t :: ts, h => by
    obtain ⟨v, hv⟩ := Tree.exists_denotes t (h t List.mem_cons_self)
    obtain ⟨vs, hvs⟩ := Tree.exists_itemsDenote ts fun s hs => h s (List.mem_cons_of_mem _ hs)
    exact ⟨v :: vs, .cons hv hvs⟩

theorem Tree.exists_membersDenote : (ms : List (String × Tree)) → (∀ m ∈ ms, ¬ m.2.Flaw) →
    ∃ ps, Tree.MembersDenote ms ps
  | [], _ => ⟨[], .nil⟩
  | (name, t) :: ms, h => by
    obtain ⟨v, hv⟩ := Tree.exists_denotes t (h (name, t) List.mem_cons_self)
    obtain ⟨ps, hps⟩ := Tree.exists_membersDenote ms fun m hm => h m (List.mem_cons_of_mem _ hm)
    exact ⟨(name, v) :: ps, .cons hv hps⟩

end

/-- **A body is read exactly when it is JSON that denotes something**: when its octets do not nest
too deeply and its text is of the grammar and denotes a value, which is then the one read. A tree
denotes a value unless one of its numbers overflows or an object whose first name is
`embeddingName` holds anything but one text that denotes a value. -/
theorem read_spec (body : List UInt8) :
    (∀ v, read body = .ok v ↔ nestingDepth body ≤ maxDepth ∧
      ∃ t, IsElement (Utf8.decodeLossy body) t ∧ t.Denotes v) ∧
    (∀ t : Tree, (∃ v, t.Denotes v) ↔ ¬ t.Flaw) ∧
    (∀ t rest v, (Tree.object ((embeddingName, t) :: rest)).Denotes v ↔
      rest = [] ∧ ∃ text, t = .string text ∧ ∃ s, IsElement text.toList s ∧
        s.nesting ≤ maxEmbeddedDepth ∧ s.Denotes v) := by
  refine ⟨fun v => read_eq_ok_iff, fun t => ⟨?_, Tree.exists_denotes t⟩,
    fun t rest v => Tree.denotes_embedding_iff⟩
  intro hdenotes hflaw
  obtain ⟨v, hv⟩ := hdenotes
  exact hflaw.not_denotes v hv

end HttpEcho.Json
