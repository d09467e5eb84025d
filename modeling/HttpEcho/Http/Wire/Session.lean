import HttpEcho.Http.Wire.Intake
import HttpEcho.Http.Wire.Message

/-! A connection on the wire.

A session says what is to be done next on its connection, and whoever does it hands back what came.
Requests are answered one at a time, in the order in which they came. -/
namespace HttpEcho.Http.Wire

/-- What a session is about. -/
inductive Concern where
  /-- The next request. -/
  | head
  /-- A request whose delay is not over. -/
  | delayed (a : Arrival)
  /-- The body of a request. -/
  | body (a : Arrival) (taken : Intake)
  /-- The last reply was sent. -/
  | leaving
  deriving Inhabited

/-- A connection. -/
structure Session where
  echo : Echo
  concern : Concern := .head
  /-- What came and was not taken. -/
  input : List UInt8 := []
  /-- The client sends nothing more. -/
  finished : Bool := false
  /-- The service is draining. -/
  draining : Bool := false

/-- What is to be done next. -/
inductive Action where
  /-- Wait for what comes. -/
  | receive
  /-- Let time pass, in milliseconds. -/
  | wait (ms : Nat)
  /-- Send octets, and log events. -/
  | send (octets : List UInt8) (log : List Log.Event)
  | close

namespace Session

/-- Something came. -/
def receive (s : Session) (octets : List UInt8) : Session :=
  { s with input := s.input ++ octets }

/-- The client has sent everything. -/
def finish (s : Session) : Session :=
  { s with finished := true }

/-- The service is to end: the request in hand is the last one. -/
def drain (s : Session) : Session :=
  { s with draining := true }

/-- Whether the session waits for a request of which nothing came. -/
def idle (s : Session) : Bool :=
  match s.concern with
  | .head => s.input.isEmpty
  | _ => false

/-- Sends a refusal, and is done. -/
def refuse (s : Session) (date : String) (e : HeadError) : Session × Action :=
  ({ s with concern := .leaving }, .send (refusalOctets date e) [])

/-- Answers a request with the body that came. Another request may follow if the body was taken as
a whole and nothing speaks against it. -/
def answer (s : Session) (date : String) (a : Arrival) (t : Intake) : Session × Action :=
  let request := { a.request with body := t.body }
  let keeps := a.keepsAlive && !s.draining && t.expected = .nothing && !a.request.method.is "CONNECT"
  ({ s with concern := if keeps then .head else .leaving },
    .send (replyOctets a.version keeps date (s.echo.reply request)) (s.echo.requestLog request))

/-- Goes on with a body. A body over the limit is not waited for. -/
def takeBody (s : Session) (date : String) (a : Arrival) (t : Intake) : Session × Action :=
  let (t, rest) := t.take s.input
  let s := { s with input := rest }
  if t.ended || s.finished || s.echo.maxBodyBytes < t.size then s.answer date a t
  else ({ s with concern := .body a t }, .receive)

/-- What is to be done next. `date` is the date that replies bear. -/
def next (s : Session) (date : String) : Session × Action :=
  match s.concern with
  | .leaving => (s, .close)
  | .head =>
    match Head.read s.input with
    | .incomplete =>
      if s.finished || (s.draining && s.input.isEmpty) then ({ s with concern := .leaving }, .close)
      else (s, .receive)
    | .refused e => s.refuse date e
    | .complete head rest =>
      match head.arrival with
      | .error e => s.refuse date e
      | .ok a =>
        ({ s with concern := .delayed a, input := rest }, .wait (s.echo.requestDelay a.request))
  | .delayed a =>
    let t := Intake.ofFraming a.framing
    match a.request.route with
    | .notFound => s.answer date a t
    | .echo =>
      if a.expectsContinue && s.input.isEmpty then
        ({ s with concern := .body a t }, .send continueText [])
      else s.takeBody date a t
  | .body a t => s.takeBody date a t

end Session

end HttpEcho.Http.Wire
