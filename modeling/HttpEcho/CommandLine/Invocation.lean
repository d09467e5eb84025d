import HttpEcho.CommandLine.UsageError
import HttpEcho.CommandLine.Word
import HttpEcho.Settings.Load

/-! How the program was called, and the settings that follow.

An option on the command line replaces what the file says, and the file replaces the default. The
rules are checked once, on the result. -/
namespace HttpEcho.CommandLine

/-- What the command line gives. -/
structure Invocation where
  address : String
  mode : Option Mode := none
  delayMs : Option Nat := none
  config : Option Argument := none
  logLevel : Option String := none
  deriving DecidableEq, Repr

namespace Invocation

/-- Puts what the command line gives over other settings. -/
def override (i : Invocation) (s : Settings) : Settings :=
  { s with
    bindAddress := i.address
    mode := i.mode.getD s.mode
    delayMs := i.delayMs.getD s.delayMs
    logLevel := i.logLevel.getD s.logLevel }

/-- The settings to run with. `file` is what came of the file that the command line names, and does
not count if it names none. -/
def settings (file : Except Settings.Error Settings) (i : Invocation) :
    Except Settings.Error Settings := do
  let base ← match i.config with
    | some _ => file
    | none => pure {}
  (i.override base).validate.mapError .invalid

end Invocation

end HttpEcho.CommandLine
