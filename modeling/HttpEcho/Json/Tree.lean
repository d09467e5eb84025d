import HttpEcho.Json.Numeral

/-! JSON texts as trees, in the order in which they are written.

A `Tree` still has everything that a text says: every member of an object, repeated names
among them, and every numeral as it is spelled. What it means is its `Value`. -/
namespace HttpEcho.Json

/-- What a JSON text says. -/
inductive Tree where
  | null
  | boolean (b : Bool)
  | number (n : Numeral)
  | string (s : String)
  | array (items : List Tree)
  | object (members : List (String × Tree))

mutual

/-- How deep arrays and objects are nested. -/
def Tree.nesting : Tree → Nat
  | .array items => 1 + Tree.nestingItems items
  | .object members => 1 + Tree.nestingMembers members
  | _ => 0

/-- The deepest of several. -/
def Tree.nestingItems : List Tree → Nat
  | [] => 0
  | s :: rest => max s.nesting (Tree.nestingItems rest)

/-- The deepest of several members. -/
def Tree.nestingMembers : List (String × Tree) → Nat
  | [] => 0
  | (_, s) :: rest => max s.nesting (Tree.nestingMembers rest)

end

end HttpEcho.Json
