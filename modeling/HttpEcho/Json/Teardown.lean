import HttpEcho.Json.Value

/-! Taking values apart without recursion into them.

A worklist holds the values that are still whole. `teardown` takes the one that was put there last,
and puts its parts there in its place, until nothing is left. Every step takes one value away from
all that are in the list at any depth, so it ends. -/
namespace HttpEcho.Json

/-- The values directly inside a value, in order. -/
def Value.parts : Value → List Value
  | .array items => items
  | .object members => members.map (·.2)
  | _ => []

mutual

/-- How many values a value is, with all that are inside it at any depth. -/
def Value.size : Value → Nat
  | .array items => 1 + Value.sizeItems items
  | .object members => 1 + Value.sizeMembers members
  | _ => 1

/-- How many values there are in several. -/
def Value.sizeItems : List Value → Nat
  | [] => 0
  | v :: rest => v.size + Value.sizeItems rest

/-- How many values there are in several members. -/
def Value.sizeMembers : List (String × Value) → Nat
  | [] => 0
  | (_, v) :: rest => v.size + Value.sizeMembers rest

end

theorem Value.sizeItems_append (a b : List Value) :
    sizeItems (a ++ b) = sizeItems a + sizeItems b := by
  induction a with
  | nil => simp [sizeItems]
  | cons v rest ih => simp [sizeItems, ih, Nat.add_assoc]

theorem Value.sizeItems_reverse (vs : List Value) : sizeItems vs.reverse = sizeItems vs := by
  induction vs with
  | nil => rfl
  | cons v rest ih => simp [sizeItems_append, sizeItems, ih, Nat.add_comm]

theorem Value.sizeItems_map_snd (members : List (String × Value)) :
    sizeItems (members.map (·.2)) = sizeMembers members := by
  induction members with
  | nil => rfl
  | cons m rest ih => simp [sizeItems, sizeMembers, ih]

theorem Value.size_eq (v : Value) : v.size = 1 + sizeItems v.parts := by
  cases v <;> simp [size, parts, sizeItems, sizeItems_map_snd]

/-- Takes the values of a worklist apart. Gives every value that was taken, in order. -/
def teardown : (pending : List Value) → List Value
  | [] => []
  | v :: rest => v :: teardown (v.parts.reverse ++ rest)
termination_by pending => Value.sizeItems pending
decreasing_by
  simp only [Value.sizeItems_append, Value.sizeItems_reverse, Value.sizeItems, Value.size_eq v]
  omega

end HttpEcho.Json
