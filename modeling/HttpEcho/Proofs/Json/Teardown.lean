import HttpEcho.Json.Teardown
import Mathlib.Data.List.Infix
import Mathlib.Data.Set.Card

/-! What the teardown of a value frees, and when.

Two values inside a value may be equal, so they are told apart by their locations (`Value.at?`), of
which there are as many as values (`ncard_locations_eq_size`).
`Worklist` is the loop of `teardown` turn by turn, with the location of every value and what is left
of the values that were taken. Whatever is to come is known from what is pending (`takings`), so a
turn moves the boundary between past and future by one (`Worklist.turn_eq`), and after any number of
turns every location is on one side of it (`accounts_after`). `teardown_frees` says that the loop
ends after as many turns as there are locations, each taken once, and that nothing is dropped while
it holds another value. -/
namespace HttpEcho.Json

/-! ### Locations -/

/-- Where a value stands in another: the part to go into at each level, from the outside. -/
abbrev Location := List Nat

/-- The value at a location. -/
def Value.at? : Location → Value → Option Value
  | [], v => some v
  | i :: p, v => v.parts[i]?.bind (Value.at? p)

/-- The locations of a value: its own, and those of all values inside it at any depth. -/
def Value.locations (v : Value) : Set Location := {p | (v.at? p).isSome}

/-- What is left of a value when its parts are taken out. -/
def Value.emptied : Value → Value
  | .array _ => .array []
  | .object _ => .object []
  | v => v

@[simp] theorem Value.at?_nil (v : Value) : v.at? [] = some v := rfl

theorem Value.at?_append (v : Value) (p q : Location) :
    v.at? (p ++ q) = (v.at? p).bind (Value.at? q) := by
  induction p generalizing v with
  | nil => rfl
  | cons i p ih =>
    show v.parts[i]?.bind (Value.at? (p ++ q)) = (v.parts[i]?.bind (Value.at? p)).bind (Value.at? q)
    cases v.parts[i]? with
    | none => rfl
    | some u => exact ih u

@[simp] theorem Value.parts_emptied (v : Value) : v.emptied.parts = [] := by
  cases v <;> rfl

/-- A value, and its location in the value that is taken apart. -/
@[ext] structure Located where
  location : Location
  value : Value

namespace Located
variable {x y : Located}

/-- The parts of a value, each at its own location. -/
def parts (x : Located) : List Located :=
  x.value.parts.mapIdx fun i v => ⟨x.location ++ [i], v⟩

/-- What is left at a location when the parts are taken out. -/
def emptied (x : Located) : Located :=
  ⟨x.location, x.value.emptied⟩

/-- Values of which neither is inside the other. -/
def Apart (x y : Located) : Prop :=
  ¬ x.location <+: y.location ∧ ¬ y.location <+: x.location

theorem map_value_parts (x : Located) : x.parts.map (·.value) = x.value.parts := by
  apply List.ext_getElem?
  intro i
  rw [parts, List.getElem?_map, List.getElem?_mapIdx, Option.map_map]
  exact Option.map_id'

theorem mem_parts_iff :
    y ∈ x.parts ↔ ∃ i, y.location = x.location ++ [i] ∧ x.value.parts[i]? = some y.value := by
  constructor
  · intro h
    obtain ⟨i, hi, rfl⟩ := List.mem_mapIdx.mp h
    exact ⟨i, rfl, List.getElem?_eq_getElem hi⟩
  · intro h
    obtain ⟨i, hlocation, hvalue⟩ := h
    obtain ⟨hi, hget⟩ := List.getElem?_eq_some_iff.mp hvalue
    refine List.mem_mapIdx.mpr ⟨i, hi, ?_⟩
    rw [hget, ← hlocation]

theorem Apart.symm (h : x.Apart y) : y.Apart x :=
  ⟨h.2, h.1⟩

/-- What is apart from a value is apart from its parts. -/
theorem Apart.of_mem_parts {z : Located} (h : x.Apart y) (hz : z ∈ x.parts) : z.Apart y := by
  obtain ⟨i, hlocation, -⟩ := mem_parts_iff.mp hz
  have hinside : x.location <+: z.location := hlocation ▸ List.prefix_append _ _
  refine ⟨fun hzy => h.1 (hinside.trans hzy), fun hyz => ?_⟩
  rw [hlocation, List.prefix_concat_iff, ← hlocation] at hyz
  rcases hyz with heq | hyx
  · exact h.1 (heq ▸ hinside)
  · exact h.2 hyx

theorem pairwise_parts (x : Located) : x.parts.Pairwise Apart := by
  apply List.pairwise_iff_getElem.mpr
  intro i j hi hj hlt
  have hne : ∀ m n : Nat, m ≠ n → ¬ x.location ++ [m] <+: x.location ++ [n] := by
    intro m n hmn hprefix
    have heq := hprefix.eq_of_length (by simp)
    exact hmn (by simpa using heq)
  simp only [parts, List.getElem_mapIdx]
  exact ⟨hne i j (Nat.ne_of_lt hlt), hne j i (Nat.ne_of_gt hlt)⟩

/-- A value that is taken from a worklist gives way to its parts. -/
theorem pairwise_turn {rest : List Located} (h : (x :: rest).Pairwise Apart) :
    (x.parts.reverse ++ rest).Pairwise Apart := by
  obtain ⟨hx, hrest⟩ := List.pairwise_cons.mp h
  refine List.pairwise_append.mpr ⟨?_, hrest, fun y hy z hz => ?_⟩
  · exact List.pairwise_reverse.mpr (x.pairwise_parts.imp Apart.symm)
  · exact (hx z hz).of_mem_parts (List.mem_reverse.mp hy)

end Located

/-! ### What is to come -/

/-- The values that will be taken when these are pending, in order. -/
def takings : (pending : List Located) → List Located
  | [] => []
  | x :: rest => x :: takings (x.parts.reverse ++ rest)
termination_by pending => Value.sizeItems (pending.map (·.value))
decreasing_by
  simp only [List.map_append, List.map_reverse, Located.map_value_parts, List.map_cons,
    Value.sizeItems_append, Value.sizeItems_reverse, Value.sizeItems, Value.size_eq x.value]
  omega

theorem map_value_takings (pending : List Located) :
    (takings pending).map (·.value) = teardown (pending.map (·.value)) := by
  induction pending using takings.induct with
  | case1 => simp [takings, teardown]
  | case2 x rest ih =>
    rw [takings, List.map_cons, ih, List.map_cons, teardown, List.map_append, List.map_reverse,
      x.map_value_parts]

/-- What is taken is what is inside the values that are pending. -/
theorem mem_takings_iff {pending : List Located} {y : Located} :
    y ∈ takings pending ↔
      ∃ x ∈ pending, ∃ p, y.location = x.location ++ p ∧ x.value.at? p = some y.value := by
  induction pending using takings.induct with
  | case1 => simp [takings]
  | case2 x rest ih =>
    rw [takings, List.mem_cons, ih]
    constructor
    · intro h
      rcases h with rfl | ⟨z, hz, p, hlocation, hvalue⟩
      · exact ⟨y, List.mem_cons_self, [], (List.append_nil _).symm, rfl⟩
      · rcases List.mem_append.mp hz with hz | hz
        · obtain ⟨i, hi, hpart⟩ := Located.mem_parts_iff.mp (List.mem_reverse.mp hz)
          refine ⟨x, List.mem_cons_self, i :: p, ?_, ?_⟩
          · rw [hlocation, hi, List.append_assoc]
            rfl
          · show x.value.parts[i]?.bind (Value.at? p) = some y.value
            rw [hpart]
            exact hvalue
        · exact ⟨z, List.mem_cons_of_mem _ hz, p, hlocation, hvalue⟩
    · intro h
      obtain ⟨z, hz, p, hlocation, hvalue⟩ := h
      rcases List.mem_cons.mp hz with rfl | hz
      · cases p with
        | nil =>
          rw [List.append_nil] at hlocation
          exact Or.inl (Located.ext hlocation (Option.some.inj hvalue).symm)
        | cons i p =>
          refine Or.inr ?_
          obtain ⟨u, hpart, hu⟩ := Option.bind_eq_some_iff.mp hvalue
          refine ⟨⟨z.location ++ [i], u⟩, ?_, p, ?_, hu⟩
          · refine List.mem_append_left _ (List.mem_reverse.mpr ?_)
            exact Located.mem_parts_iff.mpr ⟨i, rfl, hpart⟩
          · rw [hlocation, List.append_assoc]
            rfl
      · exact Or.inr ⟨z, List.mem_append_right _ hz, p, hlocation, hvalue⟩

/-- No location is taken twice. -/
theorem nodup_takings {pending : List Located} (h : pending.Pairwise Located.Apart) :
    ((takings pending).map (·.location)).Nodup := by
  induction pending using takings.induct with
  | case1 => simp [takings]
  | case2 x rest ih =>
    have hrest := (List.pairwise_cons.mp h).1
    rw [takings, List.map_cons]
    refine List.nodup_cons.mpr ⟨fun hmem => ?_, ih (Located.pairwise_turn h)⟩
    obtain ⟨y, hy, hyx⟩ := List.mem_map.mp hmem
    obtain ⟨z, hz, p, hlocation, -⟩ := mem_takings_iff.mp hy
    rw [hyx] at hlocation
    rcases List.mem_append.mp hz with hz | hz
    · -- a part of `x` is deeper than `x`
      obtain ⟨i, hi, -⟩ := Located.mem_parts_iff.mp (List.mem_reverse.mp hz)
      have hlength := congrArg List.length hlocation
      simp [hi] at hlength
    · exact (hrest z hz).2 (hlocation ▸ List.prefix_append _ _)

/-! ### Turn by turn -/

/-- The loop at some point: the values that are pending, the one that was put there last first, and
what was dropped so far. -/
structure Worklist where
  pending : List Located
  dropped : List Located := []

namespace Worklist

/-- A turn takes a value, moves its parts to what is pending, and drops what is left. -/
def turn (w : Worklist) : Worklist :=
  match w.pending with
  | [] => w
  | x :: rest => ⟨x.parts.reverse ++ rest, w.dropped ++ [x.emptied]⟩

/-- The loop for a value, after so many turns. -/
def after (v : Value) (turns : Nat) : Worklist :=
  turn^[turns] { pending := [⟨[], v⟩] }

theorem after_succ (v : Value) (n : Nat) : after v (n + 1) = (after v n).turn :=
  Function.iterate_succ_apply' turn n _

/-- A turn takes the first of what is to come. -/
theorem turn_eq (w : Worklist) : takings w.turn.pending = (takings w.pending).tail ∧
    w.turn.dropped = w.dropped ++ ((takings w.pending).head?.map Located.emptied).toList := by
  unfold turn
  cases hpending : w.pending with
  | nil => simp [takings, hpending]
  | cons x rest => simp [takings]

theorem pairwise_pending_turn {w : Worklist} (h : w.pending.Pairwise Located.Apart) :
    w.turn.pending.Pairwise Located.Apart := by
  unfold turn
  split
  · exact h
  · next x rest hpending =>
    rw [hpending] at h
    exact Located.pairwise_turn h

end Worklist

open Worklist (after)

/-- After `n` turns the first `n` of the values are dropped, and the others are to come. -/
theorem after_eq (v : Value) (n : Nat) :
    takings (after v n).pending = (takings [⟨[], v⟩]).drop n ∧
      (after v n).dropped = ((takings [⟨[], v⟩]).take n).map Located.emptied := by
  induction n with
  | zero => exact ⟨rfl, rfl⟩
  | succ n ih =>
    obtain ⟨hpending, hdropped⟩ := Worklist.turn_eq (after v n)
    rw [Worklist.after_succ]
    constructor
    · rw [hpending, ih.1, List.tail_drop]
    · rw [hdropped, ih.1, ih.2, List.head?_drop, List.take_add_one, List.map_append]
      cases (takings [⟨[], v⟩])[n]? <;> rfl

theorem pairwise_pending_after (v : Value) (n : Nat) :
    (after v n).pending.Pairwise Located.Apart := by
  induction n with
  | zero => exact List.pairwise_singleton _ _
  | succ n ih =>
    rw [Worklist.after_succ]
    exact Worklist.pairwise_pending_turn ih

/-- The values that are taken are the values at the locations, and no others. -/
theorem mem_takings_start_iff {v : Value} {x : Located} :
    x ∈ takings [⟨[], v⟩] ↔ v.at? x.location = some x.value := by
  rw [mem_takings_iff]
  simp

theorem nodup_takings_start (v : Value) : ((takings [⟨[], v⟩]).map (·.location)).Nodup :=
  nodup_takings (List.pairwise_singleton _ _)

theorem mem_map_location_iff {v : Value} {p : Location} :
    p ∈ (takings [⟨[], v⟩]).map (·.location) ↔ p ∈ v.locations := by
  rw [List.mem_map]
  constructor
  · intro h
    obtain ⟨x, hx, rfl⟩ := h
    exact Option.isSome_of_eq_some (mem_takings_start_iff.mp hx)
  · intro h
    obtain ⟨u, hu⟩ := Option.isSome_iff_exists.mp h
    exact ⟨⟨p, u⟩, mem_takings_start_iff.mpr hu, rfl⟩

theorem ncard_locations (v : Value) : v.locations.ncard = (takings [⟨[], v⟩]).length := by
  have hset : v.locations = ↑((takings [⟨[], v⟩]).map (·.location)).toFinset := by
    apply Set.ext
    intro p
    rw [List.coe_toFinset]
    exact mem_map_location_iff.symm
  rw [hset, Set.ncard_coe_finset, List.toFinset_card_of_nodup (nodup_takings_start v),
    List.length_map]

theorem length_takings (pending : List Located) :
    (takings pending).length = Value.sizeItems (pending.map (·.value)) := by
  induction pending using takings.induct with
  | case1 => simp [takings, Value.sizeItems]
  | case2 x rest ih =>
    rw [takings, List.length_cons, ih, List.map_append, List.map_reverse, x.map_value_parts,
      Value.sizeItems_append, Value.sizeItems_reverse, List.map_cons, Value.sizeItems,
      Value.size_eq x.value]
    omega

/-- A value has as many locations as there are values in it. -/
theorem ncard_locations_eq_size (v : Value) : v.locations.ncard = v.size := by
  rw [ncard_locations, length_takings]
  exact Nat.add_zero v.size

/-! ### Where everything is -/

/-- What holds of the loop for a value at any point. -/
structure Worklist.Accounts (v : Value) (w : Worklist) : Prop where
  /-- What is pending is whole. -/
  whole : ∀ x ∈ w.pending, v.at? x.location = some x.value
  /-- Nothing is pending twice, alone or inside something else. -/
  apart : w.pending.Pairwise Located.Apart
  /-- What was dropped is what is left of the value at its location. -/
  left : ∀ x ∈ w.dropped, ∃ u, v.at? x.location = some u ∧ x.value = u.emptied
  /-- No location was dropped twice. -/
  once : (w.dropped.map (·.location)).Nodup
  /-- What was dropped holds no value. -/
  bare : ∀ x ∈ w.dropped, x.value.parts = []
  /-- Every location was dropped, or else it is inside something that is pending. -/
  somewhere : ∀ p ∈ v.locations,
    Xor (p ∈ w.dropped.map (·.location)) (∃ x ∈ w.pending, x.location <+: p)

theorem map_location_dropped (v : Value) (n : Nat) : (after v n).dropped.map (·.location) =
    ((takings [⟨[], v⟩]).map (·.location)).take n := by
  rw [(after_eq v n).2, List.map_map, List.map_take]
  rfl

theorem mem_pending_takings {pending : List Located} {x : Located} (h : x ∈ pending) :
    x ∈ takings pending :=
  mem_takings_iff.mpr ⟨x, h, [], (List.append_nil _).symm, rfl⟩

theorem accounts_after (v : Value) (n : Nat) : (after v n).Accounts v := by
  obtain ⟨hpending, hdropped⟩ := after_eq v n
  have hlocations := map_location_dropped v n
  have hwhole : ∀ x ∈ (after v n).pending, v.at? x.location = some x.value := by
    intro x hx
    have hx := mem_pending_takings hx
    rw [hpending] at hx
    exact mem_takings_start_iff.mp (List.mem_of_mem_drop hx)
  refine ⟨hwhole, pairwise_pending_after v n, ?_, ?_, ?_, ?_⟩
  · intro x hx
    rw [hdropped] at hx
    obtain ⟨y, hy, rfl⟩ := List.mem_map.mp hx
    exact ⟨y.value, mem_takings_start_iff.mp (List.mem_of_mem_take hy), rfl⟩
  · rw [hlocations]
    exact (nodup_takings_start v).sublist (List.take_sublist _ _)
  · intro x hx
    rw [hdropped] at hx
    obtain ⟨y, -, rfl⟩ := List.mem_map.mp hx
    exact y.value.parts_emptied
  · intro p hp
    -- what is inside something pending is still to come
    have hinside : (∃ x ∈ (after v n).pending, x.location <+: p) ↔
        p ∈ ((takings [⟨[], v⟩]).map (·.location)).drop n := by
      rw [← List.map_drop, ← hpending, List.mem_map]
      constructor
      · intro h
        obtain ⟨x, hx, q, rfl⟩ := h
        obtain ⟨u, hu⟩ := Option.isSome_iff_exists.mp hp
        rw [Value.at?_append, hwhole x hx] at hu
        exact ⟨⟨x.location ++ q, u⟩, mem_takings_iff.mpr ⟨x, hx, q, rfl, hu⟩, rfl⟩
      · intro h
        obtain ⟨y, hy, rfl⟩ := h
        obtain ⟨x, hx, q, hlocation, -⟩ := mem_takings_iff.mp hy
        exact ⟨x, hx, hlocation ▸ List.prefix_append _ _⟩
    have hall := mem_map_location_iff.mpr hp
    have hnodup := nodup_takings_start v
    rw [← List.take_append_drop n ((takings [⟨[], v⟩]).map (·.location))] at hall hnodup
    have hdisjoint := List.disjoint_of_nodup_append hnodup
    rw [hinside, hlocations]
    rcases List.mem_append.mp hall with htaken | hleft
    · exact Or.inl ⟨htaken, hdisjoint htaken⟩
    · exact Or.inr ⟨hleft, fun htaken => hdisjoint htaken hleft⟩

/-- **A teardown ends, and frees everything.** It ends after as many turns as the value has locations
and no sooner. At any point, every location either was dropped, once and holding nothing, or is
inside one of the values that are pending, which are whole. A turn drops what is left of one value,
and all parts of it are pending then. What `teardown` takes is what stands at the locations in the
order in which they are dropped. -/
theorem teardown_frees (v : Value) :
    (∀ n, (after v n).pending = [] ↔ v.locations.ncard ≤ n) ∧
    (∀ n, (after v n).Accounts v) ∧
    (∀ n x rest, (after v n).pending = x :: rest →
      (after v (n + 1)).dropped = (after v n).dropped ++ [⟨x.location, x.value.emptied⟩] ∧
      ∀ i u, x.value.parts[i]? = some u →
        ⟨x.location ++ [i], u⟩ ∈ (after v (n + 1)).pending) ∧
    (teardown [v]).length = v.locations.ncard ∧
    (after v v.locations.ncard).dropped.map (fun x => v.at? x.location) =
      (teardown [v]).map some := by
  have hvalues := map_value_takings [⟨[], v⟩]
  refine ⟨fun n => ?_, accounts_after v, ?_, ?_, ?_⟩
  · have hnone : (after v n).pending = [] ↔ takings (after v n).pending = [] := by
      cases (after v n).pending <;> simp [takings]
    rw [hnone, (after_eq v n).1, List.drop_eq_nil_iff, ncard_locations]
  · intro n x rest hpending
    rw [Worklist.after_succ]
    simp only [Worklist.turn, hpending]
    refine ⟨rfl, fun i u hpart => List.mem_append_left _ (List.mem_reverse.mpr ?_)⟩
    exact Located.mem_parts_iff.mpr ⟨i, rfl, hpart⟩
  · show (teardown ([(⟨[], v⟩ : Located)].map (·.value))).length = _
    rw [← hvalues, List.length_map, ncard_locations]
  · have hsome : ∀ x ∈ takings [⟨[], v⟩], v.at? x.emptied.location = some x.value :=
      fun x hx => mem_takings_start_iff.mp hx
    rw [(after_eq v _).2, ncard_locations, List.take_length, List.map_map]
    show _ = (teardown ([(⟨[], v⟩ : Located)].map (·.value))).map some
    rw [← hvalues, List.map_map]
    exact List.map_congr_left hsome

end HttpEcho.Json
