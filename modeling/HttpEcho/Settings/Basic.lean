/-! What can be configured. -/
namespace HttpEcho

/-- What is done with a request body. -/
inductive Mode where
  /-- Read as JSON and written again canonically, after a delay. -/
  | json
  /-- Written in URL-safe base64. -/
  | base64
  deriving DecidableEq, Repr

namespace Mode

/-- Every mode. -/
def all : List Mode := [.json, .base64]

/-- The mode's name. -/
def name : Mode → String
  | .json => "json"
  | .base64 => "base64"

/-- The mode with a name. -/
def ofName? (text : String) : Option Mode :=
  all.find? (·.name = text)

/-- The mode with a name in any ASCII case. -/
def ofNameIgnoringCase? (text : String) : Option Mode :=
  ofName? (String.ofList (text.toList.map Char.toLower))

end Mode

/-- The settings that the program runs with. -/
structure Settings where
  bindAddress : String := "0.0.0.0:8080"
  mode : Mode := .json
  /-- The delay before a body is taken as JSON, in milliseconds. -/
  delayMs : Nat := 50
  /-- The largest body that is read. -/
  maxBodyBytes : Nat := 16 * 1024 * 1024
  logLevel : String := "info"
  deriving DecidableEq, Repr

end HttpEcho
