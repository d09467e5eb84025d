import HttpEcho.Settings.Basic

/-! The options of the command line. -/
namespace HttpEcho.CommandLine

/-- An option with a value. -/
inductive Flag where
  | mode
  | delayMs
  | config
  | logLevel
  deriving DecidableEq, Repr

namespace Flag

/-- Every option, in the order of the help. -/
def all : List Flag := [.mode, .delayMs, .config, .logLevel]

/-- The option's name after two dashes. -/
def name : Flag → String
  | .mode => "mode"
  | .delayMs => "delay-ms"
  | .config => "config"
  | .logLevel => "log-level"

/-- The option's letter after one dash. -/
def letter : Flag → Char
  | .mode => 'm'
  | .delayMs => 'd'
  | .config => 'c'
  | .logLevel => 'l'

/-- What stands for the option's value. -/
def placeholder : Flag → String
  | .mode => "<MODE>"
  | .delayMs => "<DELAY_MS>"
  | .config => "<CONFIG>"
  | .logLevel => "<LOG_LEVEL>"

/-- What the option is for. -/
def purpose : Flag → String
  | .mode => "Body transform"
  | .delayMs => "Delay before a json-mode request is processed, in milliseconds"
  | .config => "Optional TOML configuration file"
  | .logLevel => "Log level (trace, debug, info, warn, error)"

/-- The option as it is written with a value. -/
def usage (f : Flag) : String :=
  "--" ++ f.name ++ " " ++ f.placeholder

/-- The option with a name. -/
def ofName? (name : String) : Option Flag :=
  all.find? (·.name = name)

/-- The option with a letter. -/
def ofLetter? (c : Char) : Option Flag :=
  all.find? (·.letter = c)

end Flag

/-- What a mode is for. -/
def purposeOf : Mode → String
  | .json => "Parse the body as JSON and re-encode it canonically, after a delay"
  | .base64 => "Encode the raw body as URL-safe base64"

end HttpEcho.CommandLine
