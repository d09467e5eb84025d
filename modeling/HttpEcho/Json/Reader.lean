import HttpEcho.Json.Tree
import HttpEcho.Json.Token

/-! Reading a JSON text.

A `Reader` takes one character after another. Open arrays and objects lie on a stack of frames, so
the depth of a text costs no recursion, and `State.depth` says at every point how many are open.
`Tree.parse?` reads a whole text: one value, and only blanks around it. -/
namespace HttpEcho.Json

/-- An open array or object whose next value is being read. What was read is kept the last one
first. -/
inductive Frame where
  | array (items : List Tree)
  | object (members : List (String × Tree)) (name : String)

/-- What must come next. -/
inductive State where
  /-- A value. -/
  | value (frames : List Frame)
  /-- The first item of an array, or its end. -/
  | firstItem (frames : List Frame)
  /-- The first name of an object, or its end. -/
  | firstName (frames : List Frame)
  /-- A name, after a comma. -/
  | nextName (members : List (String × Tree)) (frames : List Frame)
  /-- The colon after a name. -/
  | colon (members : List (String × Tree)) (name : String) (frames : List Frame)
  /-- A value was completed: a comma, an end, or nothing more. -/
  | after (v : Tree) (frames : List Frame)

/-- How many arrays and objects are open. -/
def State.depth : State → Nat
  | .value frames => frames.length
  | .firstItem frames => frames.length + 1
  | .firstName frames => frames.length + 1
  | .nextName _ frames => frames.length + 1
  | .colon _ _ frames => frames.length + 1
  | .after _ frames => frames.length

/-! ### Tokens -/

/-- A token where a value must come. -/
def State.pushValue (frames : List Frame) : Token → Option State
  | .null => some (.after .null frames)
  | .boolean b => some (.after (.boolean b) frames)
  | .number n => some (.after (.number n) frames)
  | .string s => some (.after (.string s) frames)
  | .beginArray => some (.firstItem frames)
  | .beginObject => some (.firstName frames)
  | _ => none

/-- A token after a value. -/
def State.pushAfter (v : Tree) : List Frame → Token → Option State
  | .array items :: frames, .comma => some (.value (.array (v :: items) :: frames))
  | .array items :: frames, .endArray => some (.after (.array (v :: items).reverse) frames)
  | .object members name :: frames, .comma => some (.nextName ((name, v) :: members) frames)
  | .object members name :: frames, .endObject =>
    some (.after (.object ((name, v) :: members).reverse) frames)
  | _, _ => none

/-- Takes a token. -/
def State.push : State → Token → Option State
  | .value frames, t => pushValue frames t
  | .firstItem frames, .endArray => some (.after (.array []) frames)
  | .firstItem frames, t => pushValue (.array [] :: frames) t
  | .firstName frames, .endObject => some (.after (.object []) frames)
  | .firstName frames, .string s => some (.colon [] s frames)
  | .firstName _, _ => none
  | .nextName members frames, .string s => some (.colon members s frames)
  | .nextName _ _, _ => none
  | .colon members name frames, .colon => some (.value (.object members name :: frames))
  | .colon _ _ _, _ => none
  | .after v frames, t => pushAfter v frames t

/-- Takes several tokens. -/
def State.pushAll (s : State) (tokens : List Token) : Option State :=
  tokens.foldlM State.push s

/-! ### Characters -/

/-- A reader between two characters. -/
structure Reader where
  lexer : Lexer := .between
  state : State := .value []

/-- Takes a character. -/
def Reader.push (r : Reader) (c : Char) : Option Reader := do
  let (lexer, tokens) ← r.lexer.push c
  let state ← r.state.pushAll tokens
  some ⟨lexer, state⟩

/-- Takes several characters. -/
def Reader.pushAll (r : Reader) (text : List Char) : Option Reader :=
  text.foldlM Reader.push r

/-- The text ends: its value, if it has been completed and nothing is open. -/
def Reader.finish (r : Reader) : Option Tree := do
  let tokens ← r.lexer.finish
  match ← r.state.pushAll tokens with
  | .after v [] => some v
  | _ => none

/-- The tree of a text. -/
def Tree.parse? (text : List Char) : Option Tree := do
  (← Reader.pushAll {} text).finish

theorem Reader.pushAll_append (r : Reader) (a b : List Char) :
    r.pushAll (a ++ b) = (r.pushAll a).bind (·.pushAll b) :=
  List.foldlM_append ..

end HttpEcho.Json
