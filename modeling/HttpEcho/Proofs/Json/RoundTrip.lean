import HttpEcho.Json.Normalize
import HttpEcho.Proofs.Json.Compact

/-! Reading back what was written.

A value whose objects are maps, whose numbers are integers of 64 bits and in which no object's
least name is `embeddingName` is what its own text denotes (`Value.denotes_tree`). So it is read
back from its octets, its octets are already canonical, and no other such value has them
(`Value.Portable.roundTrip`). -/
namespace HttpEcho.Json

/-- The values that occur in a value, itself among them. -/
inductive Value.Part : Value → Value → Prop where
  | self {v} : Part v v
  | item {u v vs} : v ∈ vs → Part u v → Part u (.array vs)
  | member {u name v ms} : (name, v) ∈ ms → Part u v → Part u (.object ms)

namespace Value.Part

@[simp] theorem null_iff {u : Value} : Part u .null ↔ u = .null :=
  ⟨fun h => (by cases h; rfl), fun h => h ▸ .self⟩

@[simp] theorem boolean_iff {u : Value} {b : Bool} : Part u (.boolean b) ↔ u = .boolean b :=
  ⟨fun h => (by cases h; rfl), fun h => h ▸ .self⟩

@[simp] theorem number_iff {u : Value} {x : Number} : Part u (.number x) ↔ u = .number x :=
  ⟨fun h => (by cases h; rfl), fun h => h ▸ .self⟩

@[simp] theorem string_iff {u : Value} {s : String} : Part u (.string s) ↔ u = .string s :=
  ⟨fun h => (by cases h; rfl), fun h => h ▸ .self⟩

@[simp] theorem array_iff {u : Value} {vs : List Value} :
    Part u (.array vs) ↔ u = .array vs ∨ ∃ v ∈ vs, Part u v := by
  constructor
  · intro h
    cases h with
    | self => exact Or.inl rfl
    | item hv hu => exact Or.inr ⟨_, hv, hu⟩
  · intro hor
    rcases hor with rfl | ⟨v, hv, hu⟩
    · exact .self
    · exact .item hv hu

@[simp] theorem object_iff {u : Value} {ms : List (String × Value)} :
    Part u (.object ms) ↔ u = .object ms ∨ ∃ m ∈ ms, Part u m.2 := by
  constructor
  · intro h
    cases h with
    | self => exact Or.inl rfl
    | member hm hu => exact Or.inr ⟨_, hm, hu⟩
  · intro hor
    rcases hor with rfl | ⟨m, hm, hu⟩
    · exact .self
    · exact .member hm hu

end Value.Part

/-- A value that is what its own text denotes, as far as it alone goes. -/
def Value.IsWhatItSays : Value → Prop
  | .number x => x.numeral.Denotes x
  | .object ms => Ascending ms ∧ Ordinary ms
  | _ => True

mutual

theorem Value.denotes_tree : (v : Value) → (∀ u, Part u v → u.IsWhatItSays) → v.tree.Denotes v
  | .null, _ => .null
  | .boolean _, _ => .boolean
  | .number x, h => .number (h _ .self)
  | .string _, _ => .string
  | .array vs, h => .array (Value.itemsDenote_itemTrees vs fun v hv u hu => h u (.item hv hu))
  | .object ms, h => by
    obtain ⟨hascending, hordinary⟩ := h _ .self
    exact .object (hordinary.of_names (Value.names_memberTrees ms))
      (Value.membersDenote_memberTrees ms fun m hm u hu => h u (.member hm hu))
      hascending.isMapOf

theorem Value.itemsDenote_itemTrees : (vs : List Value) →
    (∀ v ∈ vs, ∀ u, Part u v → u.IsWhatItSays) → Tree.ItemsDenote (Value.itemTrees vs) vs
  | [], _ => .nil
  | v :: rest, h =>
    .cons (Value.denotes_tree v (h v List.mem_cons_self))
      (Value.itemsDenote_itemTrees rest fun u hu => h u (List.mem_cons_of_mem _ hu))

theorem Value.membersDenote_memberTrees : (ms : List (String × Value)) →
    (∀ m ∈ ms, ∀ u, Part u m.2 → u.IsWhatItSays) →
      Tree.MembersDenote (Value.memberTrees ms) ms
  | [], _ => .nil
  | (name, v) :: rest, h =>
    .cons (Value.denotes_tree v (h (name, v) List.mem_cons_self))
      (Value.membersDenote_memberTrees rest fun m hm => h m (List.mem_cons_of_mem _ hm))

end

/-- A value that every reader of its text understands as it was meant. -/
structure Value.Portable (v : Value) : Prop where
  nesting : v.nesting ≤ maxDepth
  /-- Objects are maps. -/
  maps : ∀ ms, Part (.object ms) v → Ascending ms
  /-- Numbers are integers of 64 bits, with or without a sign. -/
  numbers : ∀ x, Part (.number x) v → ∃ i : Int, x = .integer i ∧ -2 ^ 63 ≤ i ∧ i ≤ 2 ^ 64 - 1
  /-- The least name of an object is not `embeddingName`. -/
  ordinary : ∀ ms, Part (.object ms) v → Ordinary ms

theorem Value.Portable.isWhatItSays {v : Value} (h : v.Portable) :
    ∀ u, Part u v → u.IsWhatItSays := by
  intro u hu
  cases u with
  | number x =>
    obtain ⟨i, rfl, hlower, hupper⟩ := h.numbers x hu
    exact Number.denotes_integer hlower hupper
  | object ms => exact ⟨h.maps ms hu, h.ordinary ms hu⟩
  | null => exact True.intro
  | boolean => exact True.intro
  | string => exact True.intro
  | array => exact True.intro

theorem Value.Portable.read_encode {v : Value} (h : v.Portable) : read v.encode = .ok v :=
  read_encode_iff.mpr ⟨h.nesting, v.denotes_tree h.isWhatItSays⟩

theorem normalize_of_read {body : List UInt8} {v : Value} (h : read body = .ok v) :
    normalize body = v.encode := by
  unfold normalize
  rw [h]

/-- **What was written is read back**: a portable value is read from its octets, which are canonical
as they are, and no other portable value has them. -/
theorem Value.Portable.roundTrip {v : Value} (h : v.Portable) :
    read v.encode = .ok v ∧ normalize v.encode = v.encode ∧
      ∀ w : Value, w.Portable → w.encode = v.encode → w = v := by
  refine ⟨h.read_encode, normalize_of_read h.read_encode, fun w hw he => ?_⟩
  have hread := hw.read_encode
  rw [he, h.read_encode] at hread
  exact (Except.ok.inj hread).symm

theorem portable_limits : Value.Portable (.object [
    ("", .array [.number (.integer (-2 ^ 63)), .number (.integer (2 ^ 64 - 1)), .object []]),
    ("\"\n", .string "\x00\\é")]) := by
  have hnames : ("" : String) < "\"\n" := by decide
  refine ⟨by decide, fun ms hms => ?_, ?_, ?_⟩
  · simp at hms
    rcases hms with rfl | rfl
    · exact List.pairwise_pair.mpr hnames
    · exact List.Pairwise.nil
  · simp
  · simp [Ordinary, embeddingName]

theorem roundTrip_limits :
    let v : Value := .object [
      ("", .array [.number (.integer (-2 ^ 63)), .number (.integer (2 ^ 64 - 1)), .object []]),
      ("\"\n", .string "\x00\\é")]
    v.Portable ∧ read v.encode = .ok v ∧ normalize v.encode = v.encode ∧
      ∀ w : Value, w.Portable → w.encode = v.encode → w = v :=
  ⟨portable_limits, portable_limits.roundTrip⟩

end HttpEcho.Json
