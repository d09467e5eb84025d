import HttpEcho.Settings.Basic
import HttpEcho.Text.Blank
import HttpEcho.Text.Quoted

/-! Which settings make sense.

The rules are independent of each other, and every rule that settings violate is reported, in one
order. -/
namespace HttpEcho

/-- The longest delay, in milliseconds. -/
def maxDelayMs : Nat := 60000

/-- The levels that can be asked for. -/
def logLevels : List String := ["trace", "debug", "info", "warn", "error"]

/-- A rule that settings violate, with what violates it. -/
inductive Violation where
  | emptyBindAddress
  | zeroBodyLimit
  | delayTooLong (delayMs : Nat)
  | unknownLogLevel (level : String)
  deriving DecidableEq, Repr

namespace Violation

/-- What is said of a violation. -/
def message : Violation → String
  | .emptyBindAddress => "listener.bind_address must not be empty"
  | .zeroBodyLimit => "echo.max_body_bytes must be greater than zero"
  | .delayTooLong d => "echo.delay_ms must be at most 60000, got " ++ toString d
  | .unknownLogLevel l =>
    "observability.log_level " ++ Text.quoted l ++ " is not one of trace, debug, info, warn, error"

/-- A violation by its name. -/
def label : Violation → String
  | .emptyBindAddress => "EmptyBindAddress"
  | .zeroBodyLimit => "ZeroBodyLimit"
  | .delayTooLong d => "DelayTooLong(" ++ toString d ++ ")"
  | .unknownLogLevel l => "UnknownLogLevel(" ++ Text.quoted l ++ ")"

end Violation

namespace Settings

/-- The violations of settings. -/
def violations (s : Settings) : List Violation :=
  (if (Text.trim s.bindAddress.toList).isEmpty then [.emptyBindAddress] else []) ++
  (if s.maxBodyBytes = 0 then [.zeroBodyLimit] else []) ++
  (if maxDelayMs < s.delayMs then [.delayTooLong s.delayMs] else []) ++
  (if Text.lowercase s.logLevel ∈ logLevels then [] else [.unknownLogLevel s.logLevel])

/-- What is said of violations, all in one line. -/
def violationsMessage (vs : List Violation) : String :=
  "Validation failed: " ++ ", ".intercalate (vs.map Violation.message)

/-- The settings, if they violate nothing. -/
def validate (s : Settings) : Except (List Violation) Settings :=
  match s.violations with
  | [] => .ok s
  | vs => .error vs

end Settings

end HttpEcho
