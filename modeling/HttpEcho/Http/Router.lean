import HttpEcho.Http.Echo
import HttpEcho.Http.Target

/-! Which requests are echoed, and how their responses are sent.

Every method is echoed on every path from the root. A target that has no such path, `*` or an
authority, is not found. A response says how long its body is; a response to HEAD keeps the length
and drops the body, and a successful response to CONNECT has neither. -/
namespace HttpEcho.Http

/-- A method: any token. -/
structure Method where
  text : List Char
  token : isToken text
  deriving DecidableEq

/-- The method that octets are. -/
def Method.ofOctets? (octets : List UInt8) : Option Method :=
  let text := octets.map fun b => Char.ofNat b.toNat
  if h : isToken text then some ⟨text, h⟩ else none

/-- Whether a method has a name. -/
def Method.is (m : Method) (name : String) : Bool :=
  m.text = name.toList

/-- A request. -/
structure Request where
  method : Method
  target : Target
  headers : Headers := {}
  body : Body := {}

/-- What a request is matched with. -/
inductive Route where
  | echo
  | notFound
  deriving DecidableEq, Repr

/-- What a route takes. -/
inductive Pattern where
  /-- A path. -/
  | exact (path : List UInt8)
  /-- The paths that go on behind a beginning. -/
  | beyond (beginning : List UInt8)
  deriving DecidableEq, Repr

/-- Whether a pattern takes a path. -/
def Pattern.takes : Pattern → List UInt8 → Bool
  | .exact path, p => p = path
  | .beyond beginning, p => beginning.isPrefixOf p && p ≠ beginning

/-- The path of the root. -/
def root : List UInt8 := [0x2F]

/-- The patterns of the echo. -/
def patterns : List Pattern := [.beyond root, .exact root]

/-- The route of a path. What no pattern takes is not found. -/
def Route.ofPath (path : List UInt8) : Route :=
  if patterns.any (·.takes path) then .echo else .notFound

/-- The route of a request. -/
def Request.route (r : Request) : Route :=
  .ofPath r.target.path

/-- A response as it is sent. -/
structure Reply where
  status : Nat
  contentType : Option String
  contentLength : Option Nat
  body : List UInt8
  deriving DecidableEq, Repr

/-- The fields of a reply. -/
def Reply.fields (r : Reply) : List (String × String) :=
  (r.contentType.map (("content-type", ·))).toList ++
  (r.contentLength.map fun n => ("content-length", toString n)).toList

/-- The reply that a response is sent as. -/
def Response.toReply (r : Response) (m : Method) : Reply :=
  if m.is "CONNECT" && 200 ≤ r.status && r.status < 300 then ⟨r.status, r.contentType, none, []⟩
  else ⟨r.status, r.contentType, some r.body.length, if m.is "HEAD" then [] else r.body⟩

/-- The response to a request. -/
def Echo.dispatch (e : Echo) (r : Request) : Response :=
  match r.route with
  | .echo => e.respond r.headers r.body
  | .notFound => ⟨404, none, []⟩

/-- The reply to a request. -/
def Echo.reply (e : Echo) (r : Request) : Reply :=
  (e.dispatch r).toReply r.method

/-- What a request makes the program log. -/
def Echo.requestLog (e : Echo) (r : Request) : List Log.Event :=
  match r.route with
  | .echo => e.log r.body
  | .notFound => []

/-- How long a request waits before it is processed, in milliseconds. -/
def Echo.requestDelay (e : Echo) (r : Request) : Nat :=
  match r.route with
  | .echo => e.transform.delayMs
  | .notFound => 0

/-! ### Requests from octets -/

/-- Why a request cannot be made. -/
inductive RequestError where
  | method
  | target
  | headerName
  | headerValue
  deriving DecidableEq, Repr

/-- The request of a method, a target and fields given as octets. -/
def Request.ofOctets (method target : List UInt8) (fields : List (List UInt8 × List UInt8))
    (body : Body) : Except RequestError Request :=
  match Method.ofOctets? method, Target.of? target, Headers.ofOctets {} fields with
  | none, _, _ => .error .method
  | some _, none, _ => .error .target
  | some _, some _, .error .name => .error .headerName
  | some _, some _, .error .value => .error .headerValue
  | some m, some t, .ok h => .ok ⟨m, t, h, body⟩

end HttpEcho.Http
