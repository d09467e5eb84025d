import HttpEcho.Json.Denotation
import HttpEcho.Json.Writer
import HttpEcho.Log.Event

/-! Canonical JSON.

`normalize` reads a body and writes its value compactly. A body that has no value is written as
`null`, and the reason is logged. -/
namespace HttpEcho.Json

/-- The wording of a reason. -/
def Rejection.message : Rejection → String
  | .tooDeep depth => s!"nesting depth {depth} exceeds {maxDepth}"
  | .malformed => "syntax"

/-- The canonical octets of a body. -/
def normalize (body : List UInt8) : List UInt8 :=
  match read body with
  | .ok v => v.encode
  | .error _ => Value.null.encode

/-- What `normalize` logs. -/
def normalizeLog (body : List UInt8) : List Log.Event :=
  match read body with
  | .ok _ => []
  | .error r => [.bodyNotJson r.message body.length]

end HttpEcho.Json
