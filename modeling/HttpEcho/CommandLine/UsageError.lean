import HttpEcho.CommandLine.Help
import HttpEcho.Number.Unsigned
import HttpEcho.Text.Plain

/-! Why a command line does not run the program. -/
namespace HttpEcho.CommandLine

/-- What is wrong with a command line. Asking for help counts, since nothing else is done then. -/
inductive UsageError where
  | help (h : Help)
  /-- An argument that is no option, or one too many. -/
  | unknownArgument (text : String)
  /-- The option that asks for help has a value. -/
  | helpWithValue (value : String)
  | missingValue (f : Flag)
  | repeated (f : Flag)
  /-- A value that is none of those an option has. -/
  | unknownValue (value : String) (f : Flag)
  /-- A value that is no number. -/
  | notNumber (value : String) (f : Flag) (e : Unsigned.Error)
  /-- A value that is no text. -/
  | notText
  | missingAddress
  deriving DecidableEq, Repr

/-- What is said of an error, without what a terminal would take for a command. -/
def UsageError.message : UsageError → String
  | .help h => h.text
  | .unknownArgument text => "error: unexpected argument '" ++ Text.plain text ++ "' found"
  | .helpWithValue value =>
    "error: unexpected value '" ++ Text.plain value ++
      "' for '--help' found; no more were expected"
  | .missingValue f =>
    "error: a value is required for '" ++ f.usage ++ "' but none was supplied"
  | .repeated f => "error: the argument '" ++ f.usage ++ "' cannot be used multiple times"
  | .unknownValue value f =>
    "error: invalid value '" ++ Text.plain value ++ "' for '" ++ f.usage ++ "'"
  | .notNumber value f e =>
    "error: invalid value '" ++ Text.plain value ++ "' for '" ++ f.usage ++ "': " ++ e.message
  | .notText => "error: invalid UTF-8 was detected in one or more arguments"
  | .missingAddress => "error: the following required arguments were not provided:"

end HttpEcho.CommandLine
