import HttpEcho.Log.Event
import HttpEcho.Number.Unsigned
import HttpEcho.Text.Blank
import HttpEcho.Text.Reader

/-! Which events are shown.

A filter is a list of directives, each of which shows some events up to some detail. Of the
directives that cover an event the most specific one decides, and what no directive covers is not
shown. -/
namespace HttpEcho.Log
open Text (Reader)
open Text.Reader

/-- A rule about the events whose target begins with a text, and which have a field of a name if
one is given. -/
structure Directive where
  target : List Char := []
  field : Option String := none
  /-- How much detail is shown of them. -/
  detail : Nat
  deriving DecidableEq, Repr

namespace Directive

/-- Whether a directive says something of an event. -/
def covers (d : Directive) (e : Event) : Bool :=
  d.target.isPrefixOf e.target.toList && d.field.all (e.fieldNames.contains ·)

/-- Whether a directive decides where `other`, which came before it, also could: its target is
longer, or as long and its field is not behind. Fields are in alphabetical order, after no field. -/
def outranks (d other : Directive) : Bool :=
  if d.target.length = other.target.length then
    match d.field, other.field with
    | _, none => true
    | none, some _ => false
    | some f, some g => !(f < g)
  else other.target.length < d.target.length

end Directive

/-- A filter. -/
abbrev Filter := List Directive

namespace Filter

/-- The directive that decides about an event. -/
def deciding? (f : Filter) (e : Event) : Option Directive :=
  (f.filter (·.covers e)).foldl
    (fun best d => if best.all d.outranks then some d else best) none

/-- Whether an event is shown. -/
def shows (f : Filter) (e : Event) : Bool :=
  (f.deciding? e).any fun d => e.level.detail ≤ d.detail

end Filter

/-! ### Written -/

/-- Everything. -/
def fullDetail : Nat := 5

/-- The details by name. -/
def details : List (String × Nat) :=
  [("off", 0), ("error", 1), ("warn", 2), ("info", 3), ("debug", 4), ("trace", fullDetail)]

/-- The detail of a text: a number, or a name in any ASCII case. -/
def detail? (text : List Char) : Option Nat :=
  match Unsigned.parse fullDetail text with
  | .ok n => some n
  | .error _ => (details.find? fun d => d.1.toList = text.map Char.toLower).map (·.2)

/-- The detail after an equals sign. Without one, everything is shown. -/
def detailAfter? : List Char → Option Nat
  | [] => some fullDetail
  | text => detail? text

/-- What stands between brackets: the name of a span, and a field in braces. -/
structure Brackets where
  span : List Char
  field : Option (List Char)

/-- A directive as it is written: a target or a detail, brackets, and what stands after an equals
sign. -/
structure Written where
  target : List Char
  brackets : Option Brackets
  detail : Option (List Char)

/-- Brackets and what is between them. Braces are not empty. -/
def brackets : Reader Brackets := do
  char '['
  let span ← Reader.takeWhile fun c => c ≠ ']' && c ≠ '{'
  let field ← optional do
    char '{'
    let first ← satisfy (· ≠ '}')
    let rest ← Reader.takeWhile (· ≠ '}')
    char '}'
    return first :: rest
  char ']'
  return ⟨span, field⟩

/-- The parts of a directive. -/
def written : Reader Written := do
  let target ← Reader.takeWhile fun c => c ≠ '=' && c ≠ '['
  let between ← if (← peek) = some '[' then some <$> brackets else pure none
  let detail ← if ← accept '=' then some <$> Reader.takeWhile fun _ => true else
    let _ ← Reader.takeWhile Text.isBlank
    pure none
  return ⟨target, between, detail⟩

/-- What a directive begins with. Everything beyond ASCII is taken for a letter. -/
def beginsDirective (c : Char) : Bool :=
  c.isAlphanum || c = '-' || c = ':' || c = '_' || c = '[' || '\x80' ≤ c

/-- The directive of its parts; `none` inside for one about spans, which says nothing of events. A
field whose value matters can only be that of a span. -/
def Written.directive? (w : Written) : Option (Option Directive) := do
  let detail ← detailAfter? (w.detail.getD [])
  match w.brackets with
  | none =>
    match w.detail, detail? w.target with
    | none, some all => return some { detail := all }
    | _, _ => return some { target := w.target, detail }
  | some ⟨[], some field⟩ =>
    if '=' ∈ field then return none
    else return some { target := w.target, field := String.ofList field, detail }
  | some _ => return none

/-- The directive of a text. With blanks around it a text gives no detail, so that nothing in the
program has the target that it names. -/
def directiveOf? (text : List Char) : Option (Option Directive) := do
  guard ((Text.dropBlank text).head?.any beginsDirective)
  let w ← Reader.whole? written text
  guard (w.detail.isNone || text = Text.trim text)
  w.directive?

/-- The filter that a text is: directives with commas between them. Without any, errors alone are
shown. -/
def Filter.ofText? (text : String) : Option Filter := do
  match ← ((text.toList.splitOn ',').filter (· ≠ [])).mapM directiveOf? with
  | [] => return [{ detail := 1 }]
  | directives => return directives.filterMap id

/-- The directives for a level: the program's own events and those of its HTTP layer. -/
def defaultDirectives (level : String) : String :=
  let level := Text.lowercase level
  "echo_server=" ++ level ++ ",tower_http=" ++ level

/-- The filter for a level, unless the environment has another one that can be read. -/
def Filter.choose (wanted : Option String) (level : String) : Filter :=
  match wanted.bind Filter.ofText? with
  | some f => f
  | none => (Filter.ofText? (defaultDirectives level)).getD [{ detail := 1 }]

end HttpEcho.Log
