import HttpEcho.Http.Timeline
import HttpEcho.StopSignal

/-! The service: connections, their requests, and the end of it all.

A service accepts connections and answers their requests, one at a time on each, until it sees that
it is to stop. From then on it is draining: it accepts no connection, closes those that have no
request in hand, answers what it has in hand, and ends when no connection is left. An `Event` is
anything that can happen meanwhile, in whatever order it happens. -/
namespace HttpEcho.Http

/-- A connection. -/
structure Connection where
  /-- The request in hand. -/
  exchange : Option Exchange := none
  /-- The replies that were sent. -/
  sent : List Reply := []
  closed : Bool := false

/-- How far a service has come. -/
inductive Stage where
  | serving
  /-- The stop was seen, and what is in hand is being answered. -/
  | draining
  | stopped
  deriving DecidableEq, Repr

/-- A service. It is the first receiver of its stop signal. -/
structure Service where
  echo : Echo
  signal : StopSignal := {}
  now : Nat := 0
  stage : Stage := .serving
  connections : List Connection := []

/-- What can happen to a service. -/
inductive Event where
  /-- A client connects. -/
  | connect
  /-- A request arrives on a connection. -/
  | request (i : Nat) (r : Request)
  /-- The request in hand on a connection goes on. -/
  | advance (i : Nat)
  /-- The client of a connection leaves. -/
  | leave (i : Nat)
  /-- Time passes, in milliseconds. -/
  | pass (ms : Nat)
  /-- The stop signal is given. -/
  | trigger
  /-- Nobody can give the stop signal any more. -/
  | release
  /-- The service looks for the stop signal. -/
  | observe
  /-- The service ends, if it can. -/
  | finish

namespace Connection

/-- Takes a request, unless there is one in hand or the connection is closed. -/
def take (e : Echo) (now : Nat) (r : Request) (c : Connection) : Connection :=
  if c.closed || c.exchange.isSome then c
  else { c with exchange := some (Exchange.begin e r now) }

/-- Goes on with the request in hand. When it is done its reply is sent, and `last` says whether
that was the connection's last one. -/
def advance (e : Echo) (now : Nat) (last : Bool) (c : Connection) : Connection :=
  match c.exchange with
  | none => c
  | some x =>
    let x := x.advance e now
    match x.outcome with
    | none => { c with exchange := some x }
    | some (reply, _) => ⟨none, c.sent ++ [reply], last⟩

/-- The client is gone, and with it the request in hand. -/
def leave (c : Connection) : Connection :=
  { c with exchange := none, closed := true }

/-- Closes a connection without a request in hand. -/
def retire (c : Connection) : Connection :=
  if c.exchange.isNone then { c with closed := true } else c

end Connection

namespace Service

/-- A service that waits for a stop signal, which has no other receiver. -/
def ofEcho (e : Echo) : Service :=
  { echo := e, signal := (({} : StopSignal).subscribe).1 }

/-- Whether the stop signal was given, or cannot be given any more. -/
def mustStop (s : Service) : Bool :=
  match s.signal.receive? 0 with
  | some (_, .pending) | none => false
  | some _ => true

/-- Whether a request is in hand. -/
def busy (s : Service) : Bool :=
  s.connections.any (·.exchange.isSome)

/-- What happens to one connection. -/
def onConnection (s : Service) (i : Nat) (f : Connection → Connection) : Service :=
  { s with connections := s.connections.modify i f }

/-- What happens to a service. -/
def step (s : Service) : Event → Service
  | .connect =>
    if s.stage = .serving then { s with connections := s.connections ++ [{}] } else s
  | .request i r => s.onConnection i (Connection.take s.echo s.now r)
  | .advance i => s.onConnection i (Connection.advance s.echo s.now (s.stage ≠ .serving))
  | .leave i => s.onConnection i Connection.leave
  | .pass ms => { s with now := s.now + ms }
  | .trigger => { s with signal := s.signal.trigger.1 }
  | .release => { s with signal := s.signal.close }
  | .observe =>
    if s.stage = .serving ∧ s.mustStop then
      { s with
        stage := .draining
        signal := s.signal.drop 0
        connections := s.connections.map Connection.retire }
    else s
  | .finish =>
    if s.stage = .draining ∧ s.connections.all (·.closed) then { s with stage := .stopped } else s

/-- What happens to a service, one thing after another. -/
def run (s : Service) (events : List Event) : Service :=
  events.foldl step s

end Service

end HttpEcho.Http
