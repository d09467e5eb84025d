import HttpEcho.Json.Nesting
import HttpEcho.Json.Reader
import HttpEcho.Json.Value
import HttpEcho.Text.Utf8

/-! What a JSON text means.

A tree denotes a value when its numerals do: an object is the map of its members, the last of a
name counting. One name is special as the first of an object, `embeddingName`: such an object
stands for the JSON text in its only value, which must be a string, and is read with a smaller
limit on nesting. `read` takes octets, refuses what nests too deeply before reading anything, and
replaces what is no character. -/
namespace HttpEcho.Json

/-- The name whose object stands for the text that it holds. -/
def embeddingName : String := "$serde_json::private::RawValue"

/-- The deepest nesting of a body. -/
def maxDepth : Nat := 10000

/-- The deepest nesting of an embedded text. -/
def maxEmbeddedDepth : Nat := 127

/-- What an object's members are. -/
inductive Content where
  /-- Ordinary members. -/
  | members
  /-- A text to be read in the object's place. -/
  | embedding (text : String)
  /-- Neither. -/
  | malformed

/-- The kind of members, which the first name decides. -/
def Content.ofMembers : List (String × Tree) → Content
  | [] => .members
  | (name, v) :: rest =>
    if name = embeddingName then
      match v, rest with
      | .string text, [] => .embedding text
      | _, _ => .malformed
    else .members

mutual

/-- The value of a tree, given how embedded texts are read. -/
def Tree.value? (embedded : String → Option Value) : Tree → Option Value
  | .null => some .null
  | .boolean b => some (.boolean b)
  | .number n => n.number?.map .number
  | .string s => some (.string s)
  | .array items => (Tree.items? embedded [] items).map .array
  | .object members =>
    match Content.ofMembers members with
    | .members => (Tree.members? embedded [] members).map .object
    | .embedding text => embedded text
    | .malformed => none

/-- The values of items, after those already known, which are kept the last one first. -/
def Tree.items? (embedded : String → Option Value) (known : List Value) :
    List Tree → Option (List Value)
  | [] => some known.reverse
  | s :: rest =>
    match s.value? embedded with
    | some v => Tree.items? embedded (v :: known) rest
    | none => none

/-- The map of members, over the one already known. -/
def Tree.members? (embedded : String → Option Value) (known : List (String × Value)) :
    List (String × Tree) → Option (List (String × Value))
  | [] => some known
  | (name, s) :: rest =>
    match s.value? embedded with
    | some v => Tree.members? embedded (insert name v known) rest
    | none => none

end

/-- The value of an embedded text. Each embedding is shorter than the text it stands in, so the
text's length bounds how often one can hold another. -/
def readEmbedded : (bound : Nat) → (text : String) → Option Value
  | 0, _ => none
  | n + 1, text => do
    guard (nestingDepth (Utf8.encode text.toList) ≤ maxEmbeddedDepth)
    (← Tree.parse? text.toList).value? (readEmbedded n)

/-- Why a body has no value. -/
inductive Rejection where
  | tooDeep (depth : Nat)
  | malformed
  deriving DecidableEq, Repr

/-- The value of a body. -/
def read (body : List UInt8) : Except Rejection Value :=
  let depth := nestingDepth body
  if maxDepth < depth then .error (.tooDeep depth)
  else
    let text := Utf8.decodeLossy body
    match (Tree.parse? text).bind (·.value? (readEmbedded text.length)) with
    | some v => .ok v
    | none => .error .malformed

end HttpEcho.Json
