import HttpEcho.Http.Body
import HttpEcho.Http.Header
import HttpEcho.Transform

/-! The echo: what a request is answered with.

The answer is the dump of the request's headers, followed by the transform of its body. It never
fails: a body that cannot be read is empty. -/
namespace HttpEcho.Http

/-- What answering needs to know. -/
structure Echo where
  transform : Transform
  maxBodyBytes : Nat
  deriving DecidableEq

/-- The echo that settings ask for. -/
def Echo.ofSettings (s : Settings) : Echo :=
  ⟨Transform.ofSettings s, s.maxBodyBytes⟩

/-- A response. -/
structure Response where
  status : Nat
  contentType : Option String := none
  body : List UInt8 := []
  deriving DecidableEq, Repr

/-- The type of every echo. -/
def plainText : String := "text/plain; charset=utf-8"

namespace Echo

/-- The body of the answer, from the octets that were read. -/
def body (e : Echo) (h : Headers) (octets : List UInt8) : List UInt8 :=
  ((h.write #[]).octets (e.transform.apply octets)).toList

/-- The answer to a request. -/
def respond (e : Echo) (h : Headers) (b : Body) : Response :=
  ⟨200, some plainText, e.body h (b.octets e.maxBodyBytes)⟩

/-- What answering logs. -/
def log (e : Echo) (b : Body) : List Log.Event :=
  b.log e.maxBodyBytes ++ e.transform.log (b.octets e.maxBodyBytes)

end Echo

end HttpEcho.Http
