/-! A stop signal and those who wait for it.

The signal can be given several times. Every receiver is told of each time since it subscribed; it
keeps the last one, and says how many it lost when it was slow. The order of receivers is the order
in which they subscribed, and one that was dropped keeps its place. -/
namespace HttpEcho

/-- A stop signal. -/
structure StopSignal where
  /-- How often it was given. -/
  given : Nat := 0
  /-- It cannot be given any more. -/
  closed : Bool := false
  /-- How often it had been given when a receiver last looked; `none` for one that was dropped. -/
  receivers : List (Option Nat) := []
  deriving DecidableEq, Repr

/-- What a receiver finds when it looks. -/
inductive Receipt where
  | received
  | pending
  | closed
  /-- So many were lost; the last one is still there. -/
  | lagged (lost : Nat)
  deriving DecidableEq, Repr

namespace StopSignal

/-- Subscribes a receiver. It is not told of what was before. -/
def subscribe (s : StopSignal) : StopSignal × Nat :=
  ({ s with receivers := s.receivers ++ [some s.given] }, s.receivers.length)

/-- How many receivers there are. -/
def listening (s : StopSignal) : Nat :=
  s.receivers.countP Option.isSome

/-- Gives the signal, and says how many will be told. -/
def trigger (s : StopSignal) : StopSignal × Nat :=
  ({ s with given := s.given + 1 }, s.listening)

/-- Drops the sender: what was given can still be received. -/
def close (s : StopSignal) : StopSignal :=
  { s with closed := true }

/-- Drops a receiver. -/
def drop (s : StopSignal) (i : Nat) : StopSignal :=
  { s with receivers := s.receivers.set i none }

/-- What the receiver at a place has seen; `none` if there is none. -/
def seen? (s : StopSignal) (i : Nat) : Option Nat :=
  (s.receivers[i]?).join

/-- How often the signal was given and not received. -/
def backlog? (s : StopSignal) (i : Nat) : Option Nat :=
  (s.seen? i).map (s.given - ·)

/-- What a receiver finds that has so many to receive. -/
def receipt (s : StopSignal) : (backlog : Nat) → Receipt
  | 0 => if s.closed then .closed else .pending
  | 1 => .received
  | n + 2 => .lagged (n + 1)

/-- Looks, without waiting. After a loss, the last one is next. -/
def receive? (s : StopSignal) (i : Nat) : Option (StopSignal × Receipt) := do
  let seen ← s.seen? i
  match s.receipt (s.given - seen) with
  | .received => return ({ s with receivers := s.receivers.set i (some s.given) }, .received)
  | .lagged n => return ({ s with receivers := s.receivers.set i (some (seen + n)) }, .lagged n)
  | other => return (s, other)

/-! ### Sequences of steps -/

/-- What can be done with a stop signal. -/
inductive Step where
  | subscribe
  | trigger
  | receive (i : Nat)
  | drop (i : Nat)
  | close
  deriving DecidableEq, Repr

/-- What comes of a step. -/
inductive Answer where
  | subscribed (i : Nat)
  | notified (n : Nat)
  | receipt (r : Receipt)
  | dropped
  | closed
  /-- There is no such receiver, or the sender was dropped. -/
  | gone
  deriving DecidableEq, Repr

/-- Makes a step. -/
def step (s : StopSignal) : Step → StopSignal × Answer
  | .subscribe =>
    if s.closed then (s, .gone) else
      let (s, i) := s.subscribe
      (s, .subscribed i)
  | .trigger =>
    if s.closed then (s, .gone) else
      let (s, n) := s.trigger
      (s, .notified n)
  | .receive i =>
    match s.receive? i with
    | some (s, r) => (s, .receipt r)
    | none => (s, .gone)
  | .drop i => (s.drop i, .dropped)
  | .close => (s.close, .closed)

/-- Makes steps, one after another. -/
def run (s : StopSignal) : List Step → StopSignal × List Answer
  | [] => (s, [])
  | step :: rest =>
    let (s, a) := s.step step
    let (s, as) := s.run rest
    (s, a :: as)

end StopSignal

end HttpEcho
