import HttpEcho.Proofs.Json.RoundTrip
import HttpEcho.Proofs.Json.Structure

/-! How deep a value is nested that is read from a body.

A value is no deeper than its tree, and the tree is as deep as the body's octets say, up to
`maxDepth`. An embedded text is the exception: to the octets it is a string, but a value stands in
its place that can be `maxEmbeddedDepth` deep, and more if texts are embedded in it again.

`read_nesting` says when this matters: a value goes beyond a limit that its body keeps exactly when
the value of an embedded text does, where it stands. It also bounds it. Each level of embedded texts
adds at most one less than `maxEmbeddedDepth` to the depth of the octets, and at every depth there is
a body to which it adds as much (`exists_readsWithin_nesting_eq`). -/
namespace HttpEcho.Json

open Grammar

/-! ### Where embedded texts come to stand -/

/-- The value of an embedded text stands so deep in the value of a tree. Of members with the same
name, only the last does. -/
inductive Tree.Embeds : Tree → Nat → Value → Prop where
  | text {text v} : EmbeddedDenotes text v → Embeds (.object [(embeddingName, .string text)]) 0 v
  | item {t ts depth v} : t ∈ ts → Embeds t depth v → Embeds (.array ts) (1 + depth) v
  | member {name t ms depth v} : Ordinary ms → ms.reverse.lookup name = some t →
      Embeds t depth v → Embeds (.object ms) (1 + depth) v

/-- No value of an embedded text goes deeper, from where it stands. -/
def Tree.Fits (t : Tree) (bound : Nat) : Prop :=
  ∀ depth v, t.Embeds depth v → depth + v.nesting ≤ bound

theorem EmbeddedDenotes.unique {text : String} {v w : Value} (hv : EmbeddedDenotes text v)
    (hw : EmbeddedDenotes text w) : v = w := by
  have hread : ∀ u, EmbeddedDenotes text u → readEmbedded (text.length + 1) text = some u :=
    fun u => completeBelow_readEmbedded (text.length + 1) text u (Nat.lt_succ_self _)
  exact Option.some.inj ((hread v hv).symm.trans (hread w hw))

theorem Tree.fits_embedding {text : String} {v : Value} (h : EmbeddedDenotes text v) {n : Nat} :
    (Tree.object [(embeddingName, .string text)]).Fits n ↔ v.nesting ≤ n := by
  constructor
  · intro hfits
    rw [← Nat.zero_add v.nesting]
    exact hfits 0 v (.text h)
  · intro hle depth w hw
    cases hw with
    | text hw =>
      rw [hw.unique h, Nat.zero_add]
      exact hle
    | member hfirst => exact absurd rfl (hfirst _ rfl)

theorem Tree.fits_array {ts : List Tree} {n : Nat} :
    (Tree.array ts).Fits (1 + n) ↔ ∀ t ∈ ts, t.Fits n := by
  constructor
  · intro hfits t ht depth v hv
    have hle := hfits _ v (.item ht hv)
    omega
  · intro hfits depth v hv
    cases hv with
    | item ht hv =>
      have hle := hfits _ ht _ v hv
      omega

theorem Tree.fits_object {ms : List (String × Tree)} (h : Ordinary ms) {n : Nat} :
    (Tree.object ms).Fits (1 + n) ↔
      ∀ name t, ms.reverse.lookup name = some t → t.Fits n := by
  constructor
  · intro hfits name t ht depth v hv
    have hle := hfits _ v (.member h ht hv)
    omega
  · intro hfits depth v hv
    cases hv with
    | text => exact absurd rfl (h _ rfl)
    | member _ ht hv =>
      have hle := hfits _ _ ht _ v hv
      omega

theorem Tree.fits_of_nesting {t : Tree} (h : t.nesting = 0) (n : Nat) : t.Fits n := by
  intro depth v hv
  cases hv <;> simp [Tree.nesting] at h

theorem Value.nestingItems_le_iff {vs : List Value} {n : Nat} :
    Value.nestingItems vs ≤ n ↔ ∀ v ∈ vs, v.nesting ≤ n := by
  induction vs with
  | nil => simp [Value.nestingItems]
  | cons v vs ih => simp [Value.nestingItems, ih]

theorem Value.nestingMembers_le_iff {ms : List (String × Value)} {n : Nat} :
    Value.nestingMembers ms ≤ n ↔ ∀ m ∈ ms, m.2.nesting ≤ n := by
  induction ms with
  | nil => simp [Value.nestingMembers]
  | cons m ms ih => simp [Value.nestingMembers, ih]

mutual

/-- A value goes beyond a limit that its tree keeps exactly when an embedded text makes it. -/
theorem Tree.Denotes.nesting_le_iff {t : Tree} {v : Value} : t.Denotes v → ∀ {n : Nat},
    t.nesting ≤ n → (v.nesting ≤ n ↔ t.Fits n)
  | .null, n, _ | .boolean, n, _ | .number _, n, _ | .string, n, _ =>
    iff_of_true (Nat.zero_le n) (Tree.fits_of_nesting rfl n)
  | .array hvs, n, hle => by
    rw [Tree.nesting] at hle
    obtain ⟨n, rfl⟩ := Nat.exists_eq_add_of_le (Nat.le_of_add_right_le hle)
    rw [Value.nesting, Nat.add_le_add_iff_left, Value.nestingItems_le_iff, Tree.fits_array]
    exact Tree.ItemsDenote.nesting_le_iff hvs (Nat.add_le_add_iff_left.mp hle)
  | .object hfirst hps hmap, n, hle => by
    rw [Tree.nesting] at hle
    obtain ⟨n, rfl⟩ := Nat.exists_eq_add_of_le (Nat.le_of_add_right_le hle)
    rw [Value.nesting, Nat.add_le_add_iff_left, Value.nestingMembers_le_iff,
      Tree.fits_object hfirst]
    exact hmap.forall_iff (P := (Tree.Fits · n)) (Q := (Value.nesting · ≤ n))
      (Tree.MembersDenote.nesting_le_iff hps (Nat.add_le_add_iff_left.mp hle))
  | .embedding ht hnesting hv, _, _ => (Tree.fits_embedding ⟨_, ht, hnesting, hv⟩).symm

theorem Tree.ItemsDenote.nesting_le_iff {ts : List Tree} {vs : List Value} :
    Tree.ItemsDenote ts vs → ∀ {n : Nat}, Tree.nestingItems ts ≤ n →
      ((∀ v ∈ vs, v.nesting ≤ n) ↔ ∀ t ∈ ts, t.Fits n)
  | .nil, _, _ => iff_of_true (fun v hv => (by cases hv)) fun t ht => by cases ht
  | .cons hv hvs, n, hle => by
    rw [Tree.nestingItems, Nat.max_le] at hle
    rw [List.forall_mem_cons, List.forall_mem_cons, Tree.Denotes.nesting_le_iff hv hle.1,
      Tree.ItemsDenote.nesting_le_iff hvs hle.2]

theorem Tree.MembersDenote.nesting_le_iff {ms : List (String × Tree)}
    {ps : List (String × Value)} : Tree.MembersDenote ms ps → ∀ {n : Nat},
      Tree.nestingMembers ms ≤ n →
        List.Forall₂ (fun m p => m.1 = p.1 ∧ (p.2.nesting ≤ n ↔ m.2.Fits n)) ms ps
  | .nil, _, _ => .nil
  | .cons hv hps, n, hle => by
    rw [Tree.nestingMembers, Nat.max_le] at hle
    exact .cons ⟨rfl, Tree.Denotes.nesting_le_iff hv hle.1⟩
      (Tree.MembersDenote.nesting_le_iff hps hle.2)

end

/-! ### What reading adds -/

variable {embedded : String → Option Value} {added : Nat}

/-- The value of an embedded text is at most so much deeper than the object that it replaces. -/
def AddsAtMost (embedded : String → Option Value) (added : Nat) : Prop :=
  ∀ text v, embedded text = some v → v.nesting ≤ 1 + added

mutual

theorem Tree.nesting_value?_le (hadds : AddsAtMost embedded added) : (t : Tree) → ∀ {v : Value},
    t.value? embedded = some v → v.nesting ≤ t.nesting + added
  | .null, v, h => by
    cases h
    exact Nat.zero_le _
  | .boolean b, v, h => by
    cases h
    exact Nat.zero_le _
  | .number n, v, h => by
    obtain ⟨x, -, rfl⟩ := Option.map_eq_some_iff.mp h
    exact Nat.zero_le _
  | .string s, v, h => by
    cases h
    exact Nat.zero_le _
  | .array ts, v, h => by
    obtain ⟨vs, hvs, rfl⟩ := Option.map_eq_some_iff.mp h
    have hitems := Tree.nesting_items?_le hadds ts hvs (fun v hv => (by cases hv)) (Nat.le_refl _)
    rw [Value.nesting, Tree.nesting, Nat.add_assoc]
    exact Nat.add_le_add_left (Value.nestingItems_le_iff.mpr hitems) 1
  | .object ms, v, h => by
    unfold Tree.value? at h
    rw [Tree.nesting, Nat.add_assoc]
    cases hcontent : Content.ofMembers ms with
    | members =>
      rw [hcontent] at h
      obtain ⟨vs, hvs, rfl⟩ := Option.map_eq_some_iff.mp h
      have hmembers := Tree.nesting_members?_le hadds ms hvs (fun m hm => (by cases hm))
        (Nat.le_refl _)
      exact Nat.add_le_add_left (Value.nestingMembers_le_iff.mpr hmembers) 1
    | embedding text =>
      rw [hcontent] at h
      have hv := hadds text v h
      omega
    | malformed =>
      rw [hcontent] at h
      cases h

theorem Tree.nesting_items?_le (hadds : AddsAtMost embedded added) : (ts : List Tree) →
    ∀ {bound : Nat} {known vs : List Value}, Tree.items? embedded known ts = some vs →
      (∀ v ∈ known, v.nesting ≤ bound) → Tree.nestingItems ts + added ≤ bound →
        ∀ v ∈ vs, v.nesting ≤ bound
  | [], bound, known, vs, h, hknown, _ => by
    cases h
    exact fun v hv => hknown v (List.mem_reverse.mp hv)
  | t :: ts, bound, known, vs, h, hknown, hbound => by
    unfold Tree.items? at h
    rw [Tree.nestingItems] at hbound
    cases hv : t.value? embedded with
    | none =>
      rw [hv] at h
      cases h
    | some w =>
      rw [hv] at h
      have hw := Tree.nesting_value?_le hadds t hv
      refine Tree.nesting_items?_le hadds ts h (fun v hmem => ?_) (by omega)
      rcases List.mem_cons.mp hmem with rfl | hmem
      · omega
      · exact hknown v hmem

theorem Tree.nesting_members?_le (hadds : AddsAtMost embedded added) :
    (ms : List (String × Tree)) → ∀ {bound : Nat} {known vs : List (String × Value)},
      Tree.members? embedded known ms = some vs → (∀ m ∈ known, m.2.nesting ≤ bound) →
        Tree.nestingMembers ms + added ≤ bound → ∀ m ∈ vs, m.2.nesting ≤ bound
  | [], bound, known, vs, h, hknown, _ => by
    cases h
    exact hknown
  | (name, t) :: ms, bound, known, vs, h, hknown, hbound => by
    unfold Tree.members? at h
    rw [Tree.nestingMembers] at hbound
    cases hv : t.value? embedded with
    | none =>
      rw [hv] at h
      cases h
    | some w =>
      rw [hv] at h
      have hw := Tree.nesting_value?_le hadds t hv
      refine Tree.nesting_members?_le hadds ms h (fun m hmem => ?_) (by omega)
      rcases mem_insert hmem with rfl | hmem
      · show w.nesting ≤ bound
        omega
      · exact hknown m hmem

end

/-- What a level of embedded texts adds at most: the nesting of a text, but for the object that it
stands in. -/
def addedPerLevel : Nat :=
  maxEmbeddedDepth - 1

theorem addsAtMost_readEmbedded (levels : Nat) :
    AddsAtMost (readEmbedded levels) (addedPerLevel * levels) := by
  induction levels with
  | zero =>
    intro text v h
    cases h
  | succ levels ih =>
    intro text v h
    rw [readEmbedded_succ] at h
    by_cases hdepth : nestingDepth (Utf8.encode text.toList) ≤ maxEmbeddedDepth
    · rw [if_pos hdepth] at h
      obtain ⟨t, ht, hv⟩ := Option.bind_eq_some_iff.mp h
      rw [nestingDepth_encode (Tree.parse?_eq_some_iff.mp ht)] at hdepth
      have hadded : maxEmbeddedDepth = 1 + addedPerLevel := rfl
      calc v.nesting ≤ t.nesting + addedPerLevel * levels := Tree.nesting_value?_le ih t hv
        _ ≤ 1 + addedPerLevel + addedPerLevel * levels := Nat.add_le_add_right (hadded ▸ hdepth) _
        _ = 1 + addedPerLevel * (levels + 1) := by rw [Nat.mul_succ]; omega
    · rw [if_neg hdepth] at h
      cases h

/-! ### Levels of embedded texts -/

/-- A body has a value, and the texts embedded in it hold each other at most `levels` deep. -/
def ReadsWithin (levels : Nat) (body : List UInt8) (v : Value) : Prop :=
  nestingDepth body ≤ maxDepth ∧
    ∃ t, IsElement (Utf8.decodeLossy body) t ∧ t.value? (readEmbedded levels) = some v

theorem read_eq_ok_iff_exists_levels {body : List UInt8} {v : Value} :
    read body = .ok v ↔ ∃ levels, ReadsWithin levels body v := by
  rw [read_eq_ok_iff]
  constructor
  · intro h
    obtain ⟨hdepth, t, ht, hv⟩ := h
    exact ⟨_, hdepth, t, ht, ht.value? (completeBelow_readEmbedded _) (Nat.le_refl _) hv⟩
  · intro h
    obtain ⟨levels, hdepth, t, ht, hv⟩ := h
    exact ⟨hdepth, t, ht, Tree.denotes_of_value? (sound_readEmbedded levels) t hv⟩

theorem ReadsWithin.nesting_le {levels : Nat} {body : List UInt8} {v : Value}
    (h : ReadsWithin levels body v) : v.nesting ≤ nestingDepth body + addedPerLevel * levels := by
  obtain ⟨-, t, ht, hv⟩ := h
  rw [nestingDepth_of_isElement ht]
  exact Tree.nesting_value?_le (addsAtMost_readEmbedded levels) t hv

theorem nestingDepth_encode_value (v : Value) : nestingDepth v.encode = v.nesting := by
  rw [encode_eq, nestingDepth_encode v.isElement_chars, v.nesting_tree]

theorem readsWithin_encode {levels : Nat} {u v : Value} (hle : u.nesting ≤ maxDepth)
    (hv : u.tree.value? (readEmbedded levels) = some v) : ReadsWithin levels u.encode v := by
  refine ⟨?_, u.tree, ?_, hv⟩
  · rw [nestingDepth_encode_value]
    exact hle
  · rw [encode_eq, Utf8.decodeLossy_encode]
    exact u.isElement_chars

/-! ### As deep as can be -/

/-- A value in so many arrays, one in another. -/
def arrays : Nat → Value → Value
  | 0, v => v
  | n + 1, v => .array [arrays n v]

theorem nesting_arrays (n : Nat) (v : Value) : (arrays n v).nesting = n + v.nesting := by
  induction n with
  | zero => exact (Nat.zero_add _).symm
  | succ n ih =>
    rw [arrays, Value.nesting, Value.nestingItems, Value.nestingItems, Nat.max_zero, ih]
    omega

theorem arrays_arrays (m n : Nat) (v : Value) : arrays m (arrays n v) = arrays (m + n) v := by
  induction m with
  | zero => rw [Nat.zero_add, arrays]
  | succ m ih => rw [Nat.succ_add, arrays, arrays, ih]

theorem value?_arrays (n : Nat) {u v : Value} (h : u.tree.value? embedded = some v) :
    (arrays n u).tree.value? embedded = some (arrays n v) := by
  induction n with
  | zero => exact h
  | succ n ih =>
    rw [arrays, Value.tree, Value.itemTrees, Value.itemTrees, Tree.value?, Tree.items?, ih]
    rfl

/-- An object that stands for what the text of a value stands for. -/
def embed (u : Value) : Value :=
  .object [(embeddingName, .string (String.ofList u.chars))]

theorem value?_embed {u : Value} (hdeep : u.nesting ≤ maxEmbeddedDepth) (levels : Nat) :
    (embed u).tree.value? (readEmbedded (levels + 1)) = u.tree.value? (readEmbedded levels) := by
  have hcontent : Content.ofMembers (Value.memberTrees
      [(embeddingName, .string (String.ofList u.chars))]) = .embedding (String.ofList u.chars) :=
    Content.ofMembers_embedding.mpr rfl
  have hdepth : nestingDepth (Utf8.encode u.chars) ≤ maxEmbeddedDepth := by
    rw [← encode_eq, nestingDepth_encode_value]
    exact hdeep
  rw [embed, Value.tree, Tree.value?, hcontent]
  simp only
  rw [readEmbedded_succ, String.toList_ofList, if_pos hdepth,
    Tree.parse?_eq_some_iff.mpr u.isElement_chars, Option.bind_some]

/-- Texts that hold each other, so many levels deep, and each as deep as it may be. -/
def telescope : Nat → Value
  | 0 => .array []
  | levels + 1 => embed (arrays addedPerLevel (telescope levels))

theorem nesting_telescope (levels : Nat) : (telescope levels).nesting = 1 := by
  cases levels <;> rfl

theorem value?_telescope (levels : Nat) : (telescope levels).tree.value? (readEmbedded levels) =
    some (arrays (addedPerLevel * levels) (.array [])) := by
  induction levels with
  | zero => rfl
  | succ levels ih =>
    have hdeep : (arrays addedPerLevel (telescope levels)).nesting ≤ maxEmbeddedDepth := by
      rw [nesting_arrays, nesting_telescope]
      exact Nat.le_refl _
    rw [telescope, value?_embed hdeep, value?_arrays _ ih, arrays_arrays, Nat.mul_succ, Nat.add_comm]

/-- **What embedded texts can add.** At every depth of a body, and however many levels deep the texts
in it hold each other, a value can be as much deeper than the body as `read_nesting` allows. -/
theorem exists_readsWithin_nesting_eq (levels : Nat) {depth : Nat} (hpos : 0 < depth)
    (hle : depth ≤ maxDepth) : ∃ body v, ReadsWithin levels body v ∧ nestingDepth body = depth ∧
      v.nesting = depth + addedPerLevel * levels := by
  let u := arrays (depth - 1) (telescope levels)
  have hnesting : u.nesting = depth := by
    rw [nesting_arrays, nesting_telescope]
    exact Nat.sub_add_cancel hpos
  refine ⟨_, _, readsWithin_encode (hnesting.trans_le hle) (value?_arrays _ (value?_telescope levels)),
    (nestingDepth_encode_value u).trans hnesting, ?_⟩
  rw [nesting_arrays, nesting_arrays]
  simp only [Value.nesting, Value.nestingItems]
  omega

/-- **How deep a value is that is read.** A body that is read is itself at most `maxDepth` deep, and
its canonical octets are as deep as its value. The value keeps a limit that the body keeps, be it the
body's own depth or `maxDepth`, exactly when the values of embedded texts do. If the texts hold each
other so many levels deep, it is deeper than the body by `addedPerLevel` for each at most. -/
theorem read_nesting {body : List UInt8} {v : Value} (h : read body = .ok v) :
    nestingDepth body ≤ maxDepth ∧ nestingDepth (normalize body) = v.nesting ∧
    (∃ t, IsElement (Utf8.decodeLossy body) t ∧
      ∀ bound, nestingDepth body ≤ bound → (v.nesting ≤ bound ↔ t.Fits bound)) ∧
    ∃ levels, ReadsWithin levels body v ∧
      v.nesting ≤ nestingDepth body + addedPerLevel * levels := by
  obtain ⟨hdepth, t, ht, hv⟩ := read_eq_ok_iff.mp h
  obtain ⟨levels, hwithin⟩ := read_eq_ok_iff_exists_levels.mp h
  refine ⟨hdepth, ?_, ⟨t, ht, fun bound hbound => ?_⟩, levels, hwithin, hwithin.nesting_le⟩
  · rw [normalize_of_read h, nestingDepth_encode_value]
  · rw [nestingDepth_of_isElement ht] at hbound
    exact hv.nesting_le_iff hbound

/-- An object of depth 1 that is read as two arrays, one in the other. -/
theorem read_nesting_embed :
    let body := (embed (arrays 1 (.array []))).encode
    read body = .ok (arrays 1 (.array [])) ∧ nestingDepth body = 1 ∧
      nestingDepth (normalize body) = 2 := by
  intro body
  have hvalue : (embed (arrays 1 (.array []))).tree.value? (readEmbedded 1) =
      some (arrays 1 (.array [])) := value?_embed (by decide) 0
  have hread : read body = .ok (arrays 1 (.array [])) :=
    read_eq_ok_iff_exists_levels.mpr ⟨1, readsWithin_encode (by decide) hvalue⟩
  exact ⟨hread, nestingDepth_encode_value _, (read_nesting hread).2.1⟩

end HttpEcho.Json
