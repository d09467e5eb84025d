import HttpEcho.Toml.Lexeme
import HttpEcho.Toml.Value

/-! Tables while a document is read.

A table may be written in several places, and how it came to be decides what may still be put into
it: a header opens it once, a longer header only implies it, and dotted keys make it on the way to
an entry. -/
namespace HttpEcho.Toml

/-- How a table came to be. -/
inductive Origin where
  /-- By a header of its own. -/
  | opened
  /-- By the header of a table inside it. -/
  | implied
  /-- By a dotted key. -/
  | dotted
  deriving DecidableEq

/-- What stands under a key. -/
inductive Node where
  /-- A value is complete: nothing is added to it. -/
  | value (v : Value)
  | table (origin : Origin) (entries : List (String × Node))
  /-- An array of tables, the last one first. That one may still grow. -/
  | tables (last : List (String × Node)) (before : List (List (String × Node)))

/-- The entries of a table, in order. -/
abbrev Entries := List (String × Node)

namespace Entries

/-- What stands under a key, with the entries before and after it. -/
def split? (name : String) : Entries → Option (Entries × Node × Entries)
  | [] => none
  | (key, node) :: rest =>
    if key = name then some ([], node, rest)
    else (split? name rest).map fun (before, found, after) => ((key, node) :: before, found, after)

/-- A new entry at the end. There must be none of its name. -/
def insert? (name : String) (node : Node) (entries : Entries) : Option Entries :=
  match split? name entries with
  | none => some (entries ++ [(name, node)])
  | some _ => none

/-- Does something to the table that headers lead to. What is missing on the way is implied, and
an array of tables leads to its last one. -/
def descend (act : Entries → Option (α × Entries)) : List String → Entries → Option (α × Entries)
  | [], entries => act entries
  | name :: rest, entries => do
    match split? name entries with
    | none =>
      let (a, inner) ← descend act rest []
      return (a, entries ++ [(name, .table .implied inner)])
    | some (_, .value _, _) => none
    | some (before, .table origin inner, after) =>
      let (a, inner) ← descend act rest inner
      return (a, before ++ (name, .table origin inner) :: after)
    | some (before, .tables last earlier, after) =>
      let (a, last) ← descend act rest last
      return (a, before ++ (name, .tables last earlier) :: after)

/-- Sets an entry by a dotted key. The tables on the way are made by dotted keys: one that has a
header is not entered, and one that a header implied only on the way to another. -/
def assign (name : String) (v : Value) : List String → Entries → Option Entries
  | [], entries => insert? name (.value v) entries
  | key :: rest, entries => do
    match split? key entries with
    | none =>
      let inner ← assign name v rest []
      return entries ++ [(key, .table .dotted inner)]
    | some (_, .value _, _) => none
    | some (before, .table origin inner, after) =>
      if origin = .opened ∨ (origin = .implied ∧ rest = []) then none
      else
        let inner ← assign name v rest inner
        return before ++ (key, .table origin inner) :: after
    | some (before, .tables last earlier, after) =>
      if rest = [] then none
      else
        let last ← assign name v rest last
        return before ++ (key, .tables last earlier) :: after

end Entries

mutual

/-- The finished value of what stands under a key. -/
def Node.toValue : Node → Value
  | .value v => v
  | .table _ entries => .table (Node.entriesToValues entries)
  | .tables last before =>
    .array ((.table (Node.entriesToValues last) :: Node.tablesToValues before).reverse)

/-- The finished entries of a table. -/
def Node.entriesToValues : List (String × Node) → List (String × Value)
  | [] => []
  | (name, node) :: rest => (name, node.toValue) :: Node.entriesToValues rest

/-- The finished tables of an array. -/
def Node.tablesToValues : List (List (String × Node)) → List Value
  | [] => []
  | entries :: rest => .table (Node.entriesToValues entries) :: Node.tablesToValues rest

end

end HttpEcho.Toml
