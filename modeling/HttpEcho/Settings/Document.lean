import HttpEcho.Settings.Basic
import HttpEcho.Text.Quoted
import HttpEcho.Toml.Value

/-! Settings in a TOML document.

The root table has three sections, and each section has keys of its own. What is not there keeps
its default, what is not known is left out, and the first entry in the document's order whose value
does not fit decides the error. -/
namespace HttpEcho.Settings
open Toml (Value)

/-! ### What does not fit -/

/-- A value that does not fit where it stands. -/
inductive Misfit where
  /-- A value of another type. -/
  | type (found : Value) (expected : String)
  /-- A number out of range. -/
  | range (found : Int) (expected : String)
  /-- A name that is no mode. -/
  | unknownMode (name : String)
  /-- Neither a name nor a table with one. -/
  | notNamed

/-- What a value is called in a message. -/
def described : Value → String
  | .string text => "string " ++ Text.quoted text
  | .integer n => "integer `" ++ toString n ++ "`"
  | .floating x => "floating point `" ++ x.text ++ "`"
  | .boolean b => "boolean `" ++ toString b ++ "`"
  | .array _ => "sequence"
  | .moment | .table _ => "map"

/-- What is said of a value that does not fit. -/
def Misfit.message? : Misfit → Option String
  | .type found expected =>
    some ("invalid type: " ++ described found ++ ", expected " ++ expected)
  | .range found expected =>
    some ("invalid value: integer `" ++ toString found ++ "`, expected " ++ expected)
  | .unknownMode name =>
    some ("unknown variant `" ++ name ++ "`, expected `json` or `base64`")
  | .notNamed => none

/-! ### Values -/

/-- A text. -/
def textOf : Value → Except Misfit String
  | .string text => .ok text
  | v => .error (.type v "a string")

/-- A natural number. -/
def naturalOf (expected : String) : Value → Except Misfit Nat
  | .integer (.ofNat n) => .ok n
  | .integer n => .error (.range n expected)
  | v => .error (.type v expected)

/-- A mode with a name. -/
def namedMode (name : String) : Except Misfit Mode :=
  match Mode.ofName? name with
  | some mode => .ok mode
  | none => .error (.unknownMode name)

/-- A mode: its name, or a table that holds nothing but the name, with nothing under it. -/
def modeOf : Value → Except Misfit Mode
  | .string name => namedMode name
  | .table [(name, content)] => do
    let mode ← namedMode name
    match content with
    | .array [] | .table [] => return mode
    | _ => throw .notNamed
  | _ => .error .notNamed

/-! ### Sections -/

/-- A key of a section, and what its value sets. -/
structure Field where
  name : String
  set : Value → Settings → Except Misfit Settings

/-- A section: its key, what it is called in a message, and its keys in order. -/
structure Section where
  name : String
  described : String
  fields : List Field

/-- Where the program listens. -/
def listenerSection : Section where
  name := "listener"
  described := "struct ListenerConfig"
  fields := [⟨"bind_address", fun v s => return { s with bindAddress := ← textOf v }⟩]

/-- What is done with bodies. -/
def echoSection : Section where
  name := "echo"
  described := "struct HandlerConfig"
  fields := [
    ⟨"mode", fun v s => return { s with mode := ← modeOf v }⟩,
    ⟨"delay_ms", fun v s => return { s with delayMs := ← naturalOf "u64" v }⟩,
    ⟨"max_body_bytes", fun v s => return { s with maxBodyBytes := ← naturalOf "usize" v }⟩]

/-- What is logged. -/
def observabilitySection : Section where
  name := "observability"
  described := "struct ObservabilityConfig"
  fields := [⟨"log_level", fun v s => return { s with logLevel := ← textOf v }⟩]

/-- Every section. -/
def sections : List Section := [listenerSection, echoSection, observabilitySection]

/-- The fields that a section's value gives, in its order: a table gives them by name, an array by
position. -/
def Section.given (s : Section) (v : Value) : Except Misfit (List (Field × Value)) :=
  match v with
  | .table entries => .ok (entries.filterMap fun (name, v) =>
      (s.fields.find? (·.name = name)).map (·, v))
  | .array items => .ok (s.fields.zip items)
  | .moment => .ok []
  | v => .error (.type v s.described)

/-- Sets what a section's value gives. -/
def Section.set (s : Section) (v : Value) (settings : Settings) : Except Misfit Settings := do
  (← s.given v).foldlM (fun settings (field, v) => field.set v settings) settings

/-- Sets what an entry of the root table gives. -/
def setEntry (settings : Settings) (entry : String × Value) : Except Misfit Settings :=
  match sections.find? (·.name = entry.1) with
  | some s => s.set entry.2 settings
  | none => .ok settings

/-- The settings of a root table. -/
def ofTable (root : List (String × Value)) : Except Misfit Settings :=
  root.foldlM setEntry {}

end HttpEcho.Settings
