import HttpEcho.Files
import HttpEcho.Settings.Document
import HttpEcho.Settings.Validation
import HttpEcho.Toml.Document

/-! Settings in a file. -/
namespace HttpEcho.Settings

/-- Why there are no settings. -/
inductive Error where
  /-- The file gives no text. -/
  | file (e : FileError)
  /-- The text is no TOML document. -/
  | illFormed
  /-- A value of the document does not fit. -/
  | misfit (m : Misfit)
  /-- The settings violate rules. -/
  | invalid (violations : List Violation)

/-- What is said of an error, as far as it is settled. -/
def Error.message? : Error → Option String
  | .file e => some ("IO error: " ++ e.message)
  | .illFormed => none
  | .misfit m => m.message?
  | .invalid vs => some (violationsMessage vs)

/-- An error as a record of its parts. -/
def Error.record : Error → String
  | .file e => "Io(" ++ e.record ++ ")"
  | .illFormed => "Parse"
  | .misfit m => "Parse(" ++ m.message?.getD "" ++ ")"
  | .invalid vs => "Validation([" ++ ", ".intercalate (vs.map Violation.label) ++ "])"

/-- The settings in a text. -/
def ofText (text : List Char) : Except Error Settings :=
  match Toml.ofText? text with
  | none => .error .illFormed
  | some root => (ofTable root).mapError .misfit

/-- The settings in a file, from the outcome of reading it. Their ranges are not checked. -/
def ofFile (content : Except FileError (List UInt8)) : Except Error Settings := do
  let octets ← content.mapError .file
  let text ← (fileText octets).mapError .file
  ofText text

end HttpEcho.Settings
