import HttpEcho.Http.Router

/-! Requests on a clock.

An `Exchange` is a request being answered: it waits until its delay is over, takes its body chunk
by chunk, and is done. Several run side by side in a `Timeline`, whose clock is moved by hand; a
`Move` lets time pass or lets one exchange go on. `Echo.oneByOne` and `Echo.atOnce` say what a
list of requests comes to when each waits for the one before, and when all start together. -/
namespace HttpEcho.Http

/-! ### One exchange -/

/-- How far an exchange has come. -/
inductive Phase where
  /-- Its delay ends at a point in time. -/
  | waiting (deadline : Nat)
  /-- Its body is being taken: what may still come within the limit, what came, what will come. -/
  | taking (left : Nat) (got : List (List UInt8)) (chunks : List (List UInt8))
  /-- It was answered at a point in time. -/
  | done (reply : Reply) (time : Nat)

/-- A request that is being answered since a point in time. -/
structure Exchange where
  request : Request
  started : Nat
  phase : Phase

/-- A request arrives. What is not found is answered at once. -/
def Exchange.begin (e : Echo) (r : Request) (now : Nat) : Exchange :=
  match r.route with
  | .echo => ⟨r, now, .waiting (now + e.transform.delayMs)⟩
  | .notFound => ⟨r, now, .done (e.reply r) now⟩

/-- The reply with the octets that were taken. -/
def Exchange.replyWith (e : Echo) (r : Request) (octets : List UInt8) : Reply :=
  Response.toReply ⟨200, some plainText, e.body r.headers octets⟩ r.method

/-- Goes on as far as one thing: the end of the delay, one chunk, or the end of the body. -/
def Exchange.advance (e : Echo) (now : Nat) (x : Exchange) : Exchange :=
  match x.phase with
  | .waiting deadline =>
    if deadline ≤ now then { x with phase := .taking e.maxBodyBytes [] x.request.body.chunks } else x
  | .taking left got (c :: rest) =>
    if c.length ≤ left then { x with phase := .taking (left - c.length) (c :: got) rest }
    else { x with phase := .done (replyWith e x.request []) now }
  | .taking _ got [] =>
    let octets := if x.request.body.failure.isNone then got.reverse.flatten else []
    { x with phase := .done (replyWith e x.request octets) now }
  | .done _ _ => x

/-- The reply of an exchange that is done, and how long it took. -/
def Exchange.outcome (x : Exchange) : Option (Reply × Nat) :=
  match x.phase with
  | .done reply time => some (reply, time - x.started)
  | _ => none

/-! ### Several exchanges -/

/-- Exchanges side by side. -/
structure Timeline where
  now : Nat
  exchanges : List Exchange

/-- One thing that happens. -/
inductive Move where
  /-- Time passes, in milliseconds. -/
  | pass (ms : Nat)
  /-- The exchange at a place goes on. -/
  | advance (i : Nat)
  deriving DecidableEq, Repr

namespace Timeline

/-- Requests that arrive at once. -/
def start (e : Echo) (rs : List Request) : Timeline :=
  ⟨0, rs.map fun r => Exchange.begin e r 0⟩

/-- Makes a move. -/
def move (e : Echo) (t : Timeline) : Move → Timeline
  | .pass ms => { t with now := t.now + ms }
  | .advance i => { t with exchanges := t.exchanges.modify i (Exchange.advance e t.now) }

/-- Makes moves, one after another. -/
def run (e : Echo) (t : Timeline) (moves : List Move) : Timeline :=
  moves.foldl (move e) t

end Timeline

/-! ### Lists of requests -/

/-- What became of a request: its reply, and how long it took. -/
structure Outcome where
  reply : Reply
  elapsedMs : Nat
  deriving DecidableEq, Repr

namespace Echo

/-- A request that is alone. -/
def alone (e : Echo) (r : Request) : Outcome :=
  ⟨e.reply r, e.requestDelay r⟩

/-- Requests one after another, and the time that they take together. -/
def oneByOne (e : Echo) (rs : List Request) : List Outcome × Nat :=
  (rs.map e.alone, (rs.map e.requestDelay).foldl (· + ·) 0)

/-- Requests side by side, and the time until all are answered. -/
def atOnce (e : Echo) (rs : List Request) : List Outcome × Nat :=
  (rs.map e.alone, (rs.map e.requestDelay).foldl max 0)

end Echo

end HttpEcho.Http
