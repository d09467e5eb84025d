import HttpEcho.Base64
import HttpEcho.Json.Normalize
import HttpEcho.Settings.Basic

/-! What becomes of a request body. -/
namespace HttpEcho

/-- A mode with what it needs to run. -/
inductive Transform where
  /-- JSON, written again canonically after a delay in milliseconds. -/
  | json (delayMs : Nat)
  /-- URL-safe base64, at once. -/
  | base64
  deriving DecidableEq, Repr

namespace Transform

/-- The transform that settings ask for. -/
def ofSettings (s : Settings) : Transform :=
  match s.mode with
  | .json => .json s.delayMs
  | .base64 => .base64

/-- The mode of a transform. -/
def mode : Transform → Mode
  | .json _ => .json
  | .base64 => .base64

/-- The delay before a request is processed, in milliseconds. -/
def delayMs : Transform → Nat
  | .json d => d
  | .base64 => 0

/-- The octets that a body becomes. -/
def apply : Transform → List UInt8 → List UInt8
  | .json _, body => Json.normalize body
  | .base64, body => Utf8.encode (Base64.encode body)

/-- What is logged meanwhile. -/
def log : Transform → List UInt8 → List Log.Event
  | .json _, body => Json.normalizeLog body
  | .base64, _ => []

end Transform

end HttpEcho
