import HttpEcho.Toml.Scalar
import HttpEcho.Toml.Table

/-! A TOML document.

A document is a list of statements, most of them one line each: an entry, or a header that says
which table the entries after it belong to. `Document.ofText?` reads the statements and builds the
root table from them. -/
namespace HttpEcho.Toml
open Text (Reader)
open Text.Reader

/-! ### Values -/

/-- A key, an equals sign and what a reader reads. -/
def assignment (value : Reader Value) : Reader (Path × Value) := do
  let p ← path
  char '='
  spaces
  return (p, ← value)

/-- The items of an array, after its bracket. A comma may follow the last one. -/
def arrayItems (value : Reader Value) : Reader (List Value) :=
  many do
    gap
    if ← accept ']' then return none
    let v ← value
    gap
    if (← peek) = some ']' ∨ (← accept ',') then return some v else failure

/-- The entries of a table in braces, after the brace. No comma follows the last one. -/
def inlineEntries (value : Reader Value) : Reader (List (Path × Value)) := do
  spaces
  if ← accept '}' then return []
  let first ← assignment value
  let rest ← many do
    spaces
    if ← accept '}' then return none
    char ','
    return some (← assignment value)
  return first :: rest

/-- A table in braces. -/
def inlineTable (value : Reader Value) : Reader Value := do
  let entries ← inlineEntries value
  let table ← liftM (entries.foldlM (fun t (p, v) => Entries.assign p.name v p.tables t) [])
  return .table (Node.entriesToValues table)

/-- A value in which so many arrays and tables may stand inside each other. -/
def value : (room : Nat) → Reader Value
  | 0 => scalar
  | room + 1 => do
    match ← peek with
    | some '[' =>
      char '['
      .array <$> arrayItems (value room)
    | some '{' =>
      char '{'
      inlineTable (value room)
    | _ => scalar

/-- How many arrays and tables may stand inside each other. -/
def maxNesting : Nat := 79

/-! ### Statements -/

/-- What a document says. -/
inductive Statement where
  /-- An entry of the table that is open. -/
  | entry (p : Path) (v : Value)
  /-- Opens a table. -/
  | table (p : Path)
  /-- Opens a new table at the end of an array of tables. -/
  | element (p : Path)

/-- One statement. -/
def statement : Reader Statement := do
  if ← accept '[' then
    if ← accept '[' then
      let p ← path
      word "]]"
      return .element p
    else
      let p ← path
      char ']'
      return .table p
  else
    let (p, v) ← assignment (value maxNesting)
    return .entry p v

/-- One line: a statement or none, then blanks and a comment. -/
def line : Reader (Option Statement) := do
  spaces
  let found ← match ← peek with
    | none | some '#' | some '\n' | some '\r' => pure none
    | _ => some <$> statement
  lineEnd
  return found

/-- All lines. -/
def lines : Reader (List (Option Statement)) :=
  many do
    if ← atEnd then return none
    return some (← line)

/-- The statements of a text. A byte order mark in front is left out. -/
def statements? (text : List Char) : Option (List Statement) :=
  let text := match text with
    | '\uFEFF' :: rest => rest
    | text => text
  (Reader.whole? lines text).map (·.filterMap id)

/-! ### Building -/

/-- Where the open table belongs. -/
inductive Place where
  | root
  | table (p : Path)
  | element (p : Path)

/-- A document that is being built: the finished tables, and the one that is open. -/
structure Draft where
  root : Entries := []
  place : Place := .root
  current : Entries := []

namespace Draft

/-- Puts the open table into its place. -/
def close (d : Draft) : Option Entries :=
  match d.place with
  | .root => some d.current
  | .table p => do
    let put (parent : Entries) : Option (Unit × Entries) :=
      (parent.insert? p.name (.table .opened d.current)).map ((), ·)
    return (← Entries.descend put p.tables d.root).2
  | .element p => do
    let put (parent : Entries) : Option (Unit × Entries) :=
      match parent.split? p.name with
      | none => some ((), parent ++ [(p.name, .tables d.current [])])
      | some (before, .tables last earlier, after) =>
        some ((), before ++ (p.name, .tables d.current (last :: earlier)) :: after)
      | some _ => none
    return (← Entries.descend put p.tables d.root).2

/-- Opens a table. One that a header implied is taken out with what it holds; a table is opened
only once. -/
def openTable (p : Path) (root : Entries) : Option Draft := do
  let take (parent : Entries) : Option (Entries × Entries) :=
    match parent.split? p.name with
    | none => some ([], parent)
    | some (before, .table .implied inner, after) => some (inner, before ++ after)
    | some _ => none
  let (current, root) ← Entries.descend take p.tables root
  return { root, place := .table p, current }

/-- Takes a statement. -/
def take (d : Draft) : Statement → Option Draft
  | .entry p v => do
    return { d with current := ← Entries.assign p.name v p.tables d.current }
  | .table p => do openTable p (← d.close)
  | .element p => do return { root := ← d.close, place := .element p }

end Draft

/-- The root table of a document. -/
def ofStatements? (statements : List Statement) : Option (List (String × Value)) := do
  let d ← statements.foldlM Draft.take {}
  return Node.entriesToValues (← d.close)

/-- The root table of a text. -/
def ofText? (text : List Char) : Option (List (String × Value)) := do
  ofStatements? (← statements? text)

end HttpEcho.Toml
