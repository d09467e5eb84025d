import HttpEcho.Json.Numeral

/-! JSON values.

An object is a map: its members are kept in ascending order of their names, which is the order of
the names' UTF-8 octets, and each name is there once. `insert` keeps it so. -/
namespace HttpEcho.Json

/-- A JSON value. -/
inductive Value where
  | null
  | boolean (b : Bool)
  | number (n : Number)
  | string (s : String)
  | array (items : List Value)
  | object (members : List (String × Value))

/-- Puts a member in its place; an earlier one of the same name gives way. -/
def insert (name : String) (v : Value) : List (String × Value) → List (String × Value)
  | [] => [(name, v)]
  | (k, w) :: rest =>
    if name = k then (name, v) :: rest
    else if name < k then (name, v) :: (k, w) :: rest
    else (k, w) :: insert name v rest

mutual

/-- How deep arrays and objects are nested. -/
def Value.nesting : Value → Nat
  | .array items => 1 + Value.nestingItems items
  | .object members => 1 + Value.nestingMembers members
  | _ => 0

/-- The deepest of several. -/
def Value.nestingItems : List Value → Nat
  | [] => 0
  | v :: rest => max v.nesting (Value.nestingItems rest)

/-- The deepest of several members. -/
def Value.nestingMembers : List (String × Value) → Nat
  | [] => 0
  | (_, v) :: rest => max v.nesting (Value.nestingMembers rest)

end

end HttpEcho.Json
