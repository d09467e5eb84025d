import HttpEcho.Http.Service
import HttpEcho.Proofs.Http.Timeline
import Mathlib.Data.List.Infix

/-! One connection among others.

What happens to a service happens to each of its connections on its own (`Service.getElem?_step`).
A request in hand comes as far as the turns of its own connection take it, whatever else happens, as
long as the client stays (`Service.inHand_run`). And nothing is lost or answered twice: what was
sent on a connection and what is in hand there are what was taken, in that order
(`Service.owed_run`). -/
namespace HttpEcho.Http

/-! ### The turns of a connection -/

/-- When the connection at a place goes on. -/
def Event.turns (i : Nat) : (now : Nat) → List Event → List Nat
  | _, [] => []
  | now, .pass ms :: rest => turns i (now + ms) rest
  | now, .advance j :: rest => if j = i then now :: turns i now rest else turns i now rest
  | now, _ :: rest => turns i now rest

namespace Exchange
variable {e : Echo} {x : Exchange} {now : Nat} {times : List Nat}

/-- What an exchange has answered after some turns. Even what is done at once takes a turn. -/
def answer? (e : Echo) (x : Exchange) : List Nat → Option Reply
  | [] => none
  | now :: times => ((x.advance e now).advanceAll e times).outcome.map Prod.fst

theorem advance_of_outcome {out : Reply × Nat} (h : x.outcome = some out) :
    x.advance e now = x := by
  obtain ⟨r, started, phase⟩ := x
  cases phase with
  | waiting deadline => cases h
  | taking left got chunks => cases h
  | done reply time => rfl

theorem advanceAll_of_outcome {out : Reply × Nat} (h : x.outcome = some out) (times : List Nat) :
    x.advanceAll e times = x := by
  induction times with
  | nil => rfl
  | cons now times ih =>
    show (x.advance e now).advanceAll e times = x
    rw [advance_of_outcome h, ih]

theorem answer?_cons_of_none (h : (x.advance e now).outcome = none) :
    x.answer? e (now :: times) = (x.advance e now).answer? e times := by
  cases times with
  | nil => exact congrArg (Option.map Prod.fst) h
  | cons later times => rfl

theorem answer?_cons_of_some {reply : Reply} {elapsed : Nat}
    (h : (x.advance e now).outcome = some (reply, elapsed)) :
    x.answer? e (now :: times) = some reply := by
  rw [answer?, advanceAll_of_outcome h, h]
  rfl

theorem Serves.reply_of_outcome {r : Request} {out : Reply × Nat} (h : x.Serves e r)
    (hout : x.outcome = some out) : out.1 = e.reply r := by
  obtain ⟨r', started, phase⟩ := x
  cases phase with
  | waiting deadline => cases hout
  | taking left got chunks => cases hout
  | done reply time =>
    cases hout
    exact h.reply_of_done rfl

theorem Serves.advanceAll {r : Request} (h : x.Serves e r) (times : List Nat) :
    (x.advanceAll e times).Serves e r := by
  induction times generalizing x with
  | nil => exact h
  | cons now times ih => exact ih (h.advance now)

/-- What is answered is the reply. -/
theorem Serves.reply_of_answer {r : Request} {reply : Reply} (h : x.Serves e r)
    (hanswer : x.answer? e times = some reply) : reply = e.reply r := by
  cases times with
  | nil => cases hanswer
  | cons now times =>
    obtain ⟨out, hout, rfl⟩ := Option.map_eq_some_iff.mp hanswer
    exact ((h.advance now).advanceAll times).reply_of_outcome hout

/-- A request is answered when its turns since its delay are enough for its body. -/
theorem isSome_answer_begin {r : Request} {start : Nat}
    (hoften : r.body.chunks.length + 2 ≤ (times.filter (start + e.requestDelay r ≤ ·)).length) :
    ((Exchange.begin e r start).answer? e times).isSome = true := by
  have hsteps := stepsLeft_begin_le e r start
  have hdone := (keeps_begin e start r).isSome_outcome_of_advanceAll (Nat.le_trans hsteps hoften)
  cases times with
  | nil => cases hoften
  | cons now times => rwa [answer?, Option.isSome_map]

theorem request_advance (e : Echo) (now : Nat) (x : Exchange) :
    (x.advance e now).request = x.request := by
  obtain ⟨r, started, phase⟩ := x
  unfold advance
  cases phase with
  | waiting deadline =>
    dsimp only
    split <;> rfl
  | taking left got chunks =>
    cases chunks with
    | nil => rfl
    | cons c chunks =>
      dsimp only
      split <;> rfl
  | done reply time => rfl

theorem request_begin (e : Echo) (r : Request) (now : Nat) :
    (Exchange.begin e r now).request = r := by
  unfold Exchange.begin
  cases r.route <;> rfl

end Exchange

/-! ### One connection -/

namespace Connection
variable {e : Echo} {c : Connection} {x : Exchange} {now : Nat} {last : Bool} {r : Request}

/-- The request in hand, if there is one. -/
def inHand (c : Connection) : List Request :=
  (c.exchange.map Exchange.request).toList

/-- Whether a request would be taken. -/
def isIdle (c : Connection) : Bool :=
  !(c.closed || c.exchange.isSome)

theorem take_of_idle (h : c.isIdle = true) :
    c.take e now r = { c with exchange := some (Exchange.begin e r now) } := by
  rw [isIdle, Bool.not_eq_true', ← Bool.not_eq_true] at h
  exact if_neg h

theorem take_of_not_idle (h : c.isIdle = false) : c.take e now r = c := by
  rw [isIdle, Bool.not_eq_false'] at h
  exact if_pos h

theorem isIdle_of_some (hx : c.exchange = some x) : c.isIdle = false := by
  rw [isIdle, hx, Option.isSome_some, Bool.or_true, Bool.not_true]

theorem advance_of_none (h : c.exchange = none) : c.advance e now last = c := by
  unfold advance
  rw [h]

theorem advance_unfinished (hx : c.exchange = some x) (h : (x.advance e now).outcome = none) :
    c.advance e now last = { c with exchange := some (x.advance e now) } := by
  simp only [advance, hx, h]

theorem advance_finished {reply : Reply} {elapsed : Nat} (hx : c.exchange = some x)
    (h : (x.advance e now).outcome = some (reply, elapsed)) :
    c.advance e now last = ⟨none, c.sent ++ [reply], last⟩ := by
  simp only [advance, hx, h]

theorem retire_of_some (hx : c.exchange = some x) : c.retire = c := by
  unfold retire
  rw [hx]
  rfl

theorem retire_of_none (hx : c.exchange = none) : c.retire = { c with closed := true } := by
  unfold retire
  rw [hx]
  rfl

theorem sent_take (e : Echo) (now : Nat) (r : Request) (c : Connection) :
    (c.take e now r).sent = c.sent := by
  unfold take
  split <;> rfl

theorem sent_retire (c : Connection) : c.retire.sent = c.sent := by
  unfold retire
  split <;> rfl

theorem sent_advance (e : Echo) (now : Nat) (last : Bool) (c : Connection) :
    c.sent <+: (c.advance e now last).sent := by
  cases hx : c.exchange with
  | none => rw [advance_of_none hx]
  | some x =>
    cases hout : (x.advance e now).outcome with
    | none => rw [advance_unfinished hx hout]
    | some out =>
      rw [advance_finished hx hout]
      exact List.prefix_append c.sent _

/-- The request in hand is on its way to its reply. -/
def Serves (e : Echo) (c : Connection) : Prop :=
  ∀ x, c.exchange = some x → x.Serves e x.request

/-- The replies of a connection: those that were sent, and that of the request in hand. -/
def owed (e : Echo) (c : Connection) : List Reply :=
  c.sent ++ c.inHand.map e.reply

theorem serves_of_none (h : c.exchange = none) : c.Serves e := by
  intro x hx
  rw [h] at hx
  cases hx

theorem Serves.advance (h : c.Serves e) (now : Nat) (last : Bool) :
    (c.advance e now last).Serves e := by
  cases hx : c.exchange with
  | none =>
    rw [advance_of_none hx]
    exact h
  | some x =>
    cases hout : (x.advance e now).outcome with
    | none =>
      rw [advance_unfinished hx hout]
      rintro _ ⟨⟩
      rw [Exchange.request_advance]
      exact (h x hx).advance now
    | some out =>
      rw [advance_finished hx hout]
      exact serves_of_none rfl

theorem Serves.take (h : c.Serves e) (now : Nat) (r : Request) : (c.take e now r).Serves e := by
  cases hidle : c.isIdle with
  | false =>
    rw [take_of_not_idle hidle]
    exact h
  | true =>
    rw [take_of_idle hidle]
    rintro _ ⟨⟩
    rw [Exchange.request_begin]
    exact (Exchange.keeps_begin e now r).serves

theorem Serves.retire (h : c.Serves e) : c.retire.Serves e := by
  unfold Connection.retire
  split <;> exact h

theorem inHand_of_none (h : c.exchange = none) : c.inHand = [] := by
  rw [inHand, h]
  rfl

theorem inHand_of_some (hx : c.exchange = some x) : c.inHand = [x.request] := by
  rw [inHand, hx]
  rfl

theorem exchange_of_idle (h : c.isIdle = true) : c.exchange = none := by
  rw [isIdle, Bool.not_eq_true', Bool.or_eq_false_iff] at h
  exact Option.not_isSome_iff_eq_none.mp (Bool.not_eq_true _ ▸ h.2)

theorem owed_take (h : c.isIdle = true) :
    (c.take e now r).owed e = c.owed e ++ [e.reply r] := by
  rw [take_of_idle h, owed, owed, inHand_of_none (exchange_of_idle h), inHand_of_some rfl,
    Exchange.request_begin, List.map_nil, List.append_nil]
  rfl

/-- A turn answers the request in hand, or leaves it there. -/
theorem Serves.owed_advance (h : c.Serves e) (now : Nat) (last : Bool) :
    (c.advance e now last).owed e = c.owed e := by
  cases hx : c.exchange with
  | none => rw [advance_of_none hx]
  | some x =>
    rw [owed, owed, inHand_of_some hx]
    cases hout : (x.advance e now).outcome with
    | none =>
      rw [advance_unfinished hx hout, inHand_of_some rfl, Exchange.request_advance]
    | some out =>
      have hreply : out.1 = e.reply x.request := ((h x hx).advance now).reply_of_outcome hout
      rw [advance_finished hx hout, inHand_of_none rfl, hreply, List.map_nil, List.append_nil]
      rfl

theorem owed_retire (e : Echo) (c : Connection) : c.retire.owed e = c.owed e := by
  unfold retire
  split <;> rfl

end Connection

/-! ### What can happen to a service -/

namespace Service

/-- What an event can come to. -/
inductive Steps (s : Service) : Event → Service → Prop
  | connect : s.stage = .serving →
      Steps s .connect { s with connections := s.connections ++ [{}] }
  | refuse : s.stage ≠ .serving → Steps s .connect s
  | request (j r) : Steps s (.request j r) (s.onConnection j (Connection.take s.echo s.now r))
  | advance (j) : Steps s (.advance j)
      (s.onConnection j (Connection.advance s.echo s.now (s.stage ≠ .serving)))
  | leave (j) : Steps s (.leave j) (s.onConnection j Connection.leave)
  | pass (ms) : Steps s (.pass ms) { s with now := s.now + ms }
  | trigger : Steps s .trigger { s with signal := s.signal.trigger.1 }
  | release : Steps s .release { s with signal := s.signal.close }
  | observe : s.stage = .serving → s.mustStop = true → Steps s .observe
      { s with
        stage := .draining
        signal := s.signal.drop 0
        connections := s.connections.map Connection.retire }
  | unobserved : ¬ (s.stage = .serving ∧ s.mustStop = true) → Steps s .observe s
  | finish : s.stage = .draining → s.connections.all (·.closed) = true →
      Steps s .finish { s with stage := .stopped }
  | unfinished : ¬ (s.stage = .draining ∧ s.connections.all (·.closed) = true) →
      Steps s .finish s

theorem steps_step (s : Service) (event : Event) : s.Steps event (s.step event) := by
  cases event with
  | connect =>
    by_cases hserving : s.stage = .serving
    · rw [show s.step .connect = _ from if_pos hserving]
      exact .connect hserving
    · rw [show s.step .connect = s from if_neg hserving]
      exact .refuse hserving
  | request j r => exact .request j r
  | advance j => exact .advance j
  | leave j => exact .leave j
  | pass ms => exact .pass ms
  | trigger => exact .trigger
  | release => exact .release
  | observe =>
    by_cases hstop : s.stage = .serving ∧ s.mustStop = true
    · rw [show s.step .observe = _ from if_pos hstop]
      exact .observe hstop.1 hstop.2
    · rw [show s.step .observe = s from if_neg hstop]
      exact .unobserved hstop
  | finish =>
    by_cases hend : s.stage = .draining ∧ s.connections.all (·.closed) = true
    · rw [show s.step .finish = _ from if_pos hend]
      exact .finish hend.1 hend.2
    · rw [show s.step .finish = s from if_neg hend]
      exact .unfinished hend

variable {s t : Service} {c : Connection} {x : Exchange} {i : Nat} {event : Event}
  {events : List Event}

theorem Steps.echo_eq (h : s.Steps event t) : t.echo = s.echo := by
  cases h <;> rfl

theorem echo_run (s : Service) (events : List Event) : (s.run events).echo = s.echo := by
  induction events generalizing s with
  | nil => rfl
  | cons event events ih => exact (ih (s.step event)).trans (steps_step s event).echo_eq

/-! ### A connection of a service -/

/-- What an event does to the connection at a place. -/
def onOne (s : Service) (i : Nat) (c : Connection) : Event → Connection
  | .request j r => if j = i then c.take s.echo s.now r else c
  | .advance j => if j = i then c.advance s.echo s.now (s.stage ≠ .serving) else c
  | .leave j => if j = i then c.leave else c
  | .observe => if s.stage = .serving ∧ s.mustStop then c.retire else c
  | _ => c

theorem onOne_cases (s : Service) (i : Nat) (c : Connection) (event : Event) :
    s.onOne i c event = c ∨ (∃ r, s.onOne i c event = c.take s.echo s.now r) ∨
      (∃ last, s.onOne i c event = c.advance s.echo s.now last) ∨
      s.onOne i c event = c.leave ∨ s.onOne i c event = c.retire := by
  cases event with
  | request j r => exact (ite_eq_or_eq _ _ _).symm.imp_right fun h => .inl ⟨r, h⟩
  | advance j => exact (ite_eq_or_eq _ _ _).symm.imp_right fun h => .inr (.inl ⟨_, h⟩)
  | leave j => exact (ite_eq_or_eq _ _ _).symm.imp_right fun h => .inr (.inr (.inl h))
  | observe => exact (ite_eq_or_eq _ _ _).symm.imp_right fun h => .inr (.inr (.inr h))
  | _ => exact .inl rfl

theorem getElem?_onConnection (s : Service) (i j : Nat) (f : Connection → Connection) :
    (s.onConnection j f).connections[i]? =
      s.connections[i]?.map fun c => if j = i then f c else c := by
  unfold onConnection
  rw [List.getElem?_modify]
  cases s.connections[i]? <;> rfl

/-- What happens to a service happens to each of its connections on its own. -/
theorem getElem?_step (hc : s.connections[i]? = some c) (event : Event) :
    (s.step event).connections[i]? = some (s.onOne i c event) := by
  have hsteps := steps_step s event
  generalize s.step event = t at hsteps
  cases hsteps with
  | connect =>
    obtain ⟨hi, -⟩ := List.getElem?_eq_some_iff.mp hc
    rw [List.getElem?_append_left hi]
    exact hc
  | request j r => rw [getElem?_onConnection, hc]; rfl
  | advance j => rw [getElem?_onConnection, hc]; rfl
  | leave j => rw [getElem?_onConnection, hc]; rfl
  | observe hserving hstop =>
    rw [List.getElem?_map, hc, onOne, if_pos ⟨hserving, hstop⟩]
    rfl
  | unobserved hno => rw [hc, onOne, if_neg hno]
  | _ => exact hc

theorem getElem?_step_of_none (hc : s.connections[i]? = none) (event : Event) :
    (s.step event).connections[i]? = none ∨ (s.step event).connections[i]? = some {} := by
  have hsteps := steps_step s event
  generalize s.step event = t at hsteps
  cases hsteps with
  | connect =>
    rw [List.getElem?_append_right (List.getElem?_eq_none_iff.mp hc)]
    cases i - s.connections.length with
    | zero => exact .inr rfl
    | succ n => exact .inl rfl
  | request j r => rw [getElem?_onConnection, hc]; exact .inl rfl
  | advance j => rw [getElem?_onConnection, hc]; exact .inl rfl
  | leave j => rw [getElem?_onConnection, hc]; exact .inl rfl
  | observe =>
    rw [List.getElem?_map, hc]
    exact .inl rfl
  | _ => exact .inl hc

/-! ### A request in hand -/

/-- A request in hand is left alone by everything but its own turns. -/
theorem onOne_of_some (hx : c.exchange = some x) (hturn : event ≠ .advance i)
    (hstay : event ≠ .leave i) : s.onOne i c event = c := by
  cases event with
  | request j r =>
    rw [onOne, c.take_of_not_idle (Connection.isIdle_of_some hx), ite_self]
  | advance j => exact if_neg fun hj => hturn (congrArg Event.advance hj)
  | leave j => exact if_neg fun hj => hstay (congrArg Event.leave hj)
  | observe =>
    rw [onOne, c.retire_of_some hx, ite_self]
  | _ => rfl

theorem turns_cons (hturn : event ≠ .advance i) :
    Event.turns i s.now (event :: events) = Event.turns i (s.step event).now events := by
  have hsteps := steps_step s event
  generalize s.step event = t at hsteps
  cases hsteps with
  | advance j => exact if_neg fun hj => hturn (congrArg Event.advance hj)
  | _ => rfl

theorem sent_onOne (s : Service) (i : Nat) (c : Connection) (event : Event) :
    c.sent <+: (s.onOne i c event).sent := by
  rcases s.onOne_cases i c event with h | ⟨r, h⟩ | ⟨last, h⟩ | h | h
  · rw [h]
  · rw [h, Connection.sent_take]
  · rw [h]
    exact c.sent_advance s.echo s.now last
  · rw [h, Connection.leave]
  · rw [h, Connection.sent_retire]

/-- What was sent stays sent. -/
theorem sent_run (hc : s.connections[i]? = some c) (events : List Event) :
    ∃ c', (s.run events).connections[i]? = some c' ∧ c.sent <+: c'.sent := by
  induction events generalizing s c with
  | nil => exact ⟨c, hc, List.prefix_rfl⟩
  | cons event events ih =>
    obtain ⟨c', hc', hsent⟩ := ih (getElem?_step hc event)
    exact ⟨c', hc', (s.sent_onOne i c event).trans hsent⟩

/-- **A request in hand comes as far as its own turns take it**, as long as its client stays: until
it is answered nothing else changes its connection, and then its reply is the next one there. -/
theorem inHand_run (hc : s.connections[i]? = some c) (hx : c.exchange = some x)
    (hstay : .leave i ∉ events) :
    ∃ c', (s.run events).connections[i]? = some c' ∧
      match x.answer? s.echo (Event.turns i s.now events) with
      | none => c'.sent = c.sent ∧ ∃ x', c'.exchange = some x' ∧ x'.request = x.request
      | some reply => c.sent ++ [reply] <+: c'.sent := by
  -- Only a turn of this connection changes it before the reply; once that is sent it stays sent.
  induction events generalizing s c x with
  | nil => exact ⟨c, hc, rfl, x, hx, rfl⟩
  | cons event events ih =>
    obtain ⟨hfirst, hlater⟩ := not_or.mp (mt List.mem_cons.mpr hstay)
    have hstep := getElem?_step hc event
    by_cases hturn : event = .advance i
    · subst hturn
      have hone : s.onOne i c (.advance i) = c.advance s.echo s.now (s.stage ≠ .serving) :=
        if_pos rfl
      have hturns : Event.turns i s.now (.advance i :: events) =
          s.now :: Event.turns i s.now events := if_pos rfl
      rw [hone] at hstep
      rw [hturns]
      cases hout : (x.advance s.echo s.now).outcome with
      | none =>
        rw [Connection.advance_unfinished hx hout] at hstep
        rw [Exchange.answer?_cons_of_none hout, ← Exchange.request_advance s.echo s.now x]
        have hrest := ih hstep rfl hlater
        exact hrest
      | some out =>
        rw [Connection.advance_finished hx hout] at hstep
        rw [Exchange.answer?_cons_of_some hout]
        exact sent_run hstep events
    · rw [onOne_of_some hx hturn fun he => hfirst he.symm] at hstep
      rw [turns_cons hturn, ← (steps_step s event).echo_eq]
      exact ih hstep hx hlater

/-! ### What was taken, and what was answered -/

/-- The replies that were sent on a connection. -/
def replies (s : Service) (i : Nat) : List Reply :=
  (s.connections[i]?.map Connection.sent).getD []

/-- The request in hand on a connection, if there is one. -/
def inHand (s : Service) (i : Nat) : List Request :=
  (s.connections[i]?.map Connection.inHand).getD []

/-- Whether a request on a connection would be taken. -/
def isIdle (s : Service) (i : Nat) : Bool :=
  s.connections[i]?.any Connection.isIdle

/-- The request that an event makes a connection take. -/
def takes (s : Service) (i : Nat) : Event → List Request
  | .request j r => if j = i ∧ s.isIdle i = true then [r] else []
  | _ => []

/-- The requests that a connection takes, one event after another. -/
def taken (s : Service) (i : Nat) : List Event → List Request
  | [] => []
  | event :: events => s.takes i event ++ (s.step event).taken i events

/-- The replies of a connection: those that were sent, and that of the request in hand. -/
def owed (s : Service) (i : Nat) : List Reply :=
  s.replies i ++ (s.inHand i).map s.echo.reply

/-- Every request in hand is on its way to its reply. -/
def Serves (s : Service) : Prop :=
  ∀ (i : Nat) (c : Connection), s.connections[i]? = some c → c.Serves s.echo

theorem replies_of_some (hc : s.connections[i]? = some c) : s.replies i = c.sent := by
  rw [replies, hc]
  rfl

theorem inHand_of_some (hc : s.connections[i]? = some c) : s.inHand i = c.inHand := by
  rw [inHand, hc]
  rfl

theorem owed_of_some (hc : s.connections[i]? = some c) : s.owed i = c.owed s.echo := by
  rw [owed, replies, inHand, hc]
  rfl

theorem owed_of_none (hc : s.connections[i]? = none) : s.owed i = [] := by
  rw [owed, replies, inHand, hc]
  rfl

theorem isIdle_of_getElem? (hc : s.connections[i]? = some c) : s.isIdle i = c.isIdle := by
  rw [isIdle, hc]
  rfl

theorem serves_ofEcho (e : Echo) : (ofEcho e).Serves := by
  rintro i c ⟨⟩

theorem serves_onOne (h : c.Serves s.echo) (i : Nat) (event : Event) :
    (s.onOne i c event).Serves s.echo := by
  rcases s.onOne_cases i c event with hone | ⟨r, hone⟩ | ⟨last, hone⟩ | hone | hone <;> rw [hone]
  · exact h
  · exact h.take s.now r
  · exact h.advance s.now last
  · exact Connection.serves_of_none rfl
  · exact h.retire

theorem Serves.step (h : s.Serves) (event : Event) : (s.step event).Serves := by
  intro i c hc
  rw [(steps_step s event).echo_eq]
  cases hbefore : s.connections[i]? with
  | none =>
    rcases getElem?_step_of_none hbefore event with hnone | hnew
    · rw [hnone] at hc
      cases hc
    · rw [hnew] at hc
      cases hc
      exact Connection.serves_of_none rfl
  | some c₀ =>
    rw [getElem?_step hbefore event] at hc
    cases hc
    exact serves_onOne (h i c₀ hbefore) i event

theorem Serves.run (h : s.Serves) (events : List Event) : (s.run events).Serves := by
  induction events generalizing s with
  | nil => exact h
  | cons event events ih => exact ih (h.step event)

/-- A step takes a request or none, and answers only what is in hand. -/
theorem owed_step (h : s.Serves) (hstay : event ≠ .leave i) :
    (s.step event).owed i = s.owed i ++ (s.takes i event).map s.echo.reply := by
  cases hc : s.connections[i]? with
  | none =>
    have hnothing : s.takes i event = [] := by
      cases event with
      | request j r => exact if_neg fun hj => by simp [isIdle, hc] at hj
      | _ => rfl
    rw [hnothing, owed_of_none hc]
    rcases getElem?_step_of_none hc event with hnone | hnew
    · exact owed_of_none hnone
    · exact owed_of_some hnew
  | some c =>
    rw [owed_of_some (getElem?_step hc event), owed_of_some hc, (steps_step s event).echo_eq]
    cases event with
    | request j r =>
      rw [onOne, takes, isIdle_of_getElem? hc]
      by_cases hj : j = i
      · cases hidle : c.isIdle with
        | false => simp [hj, c.take_of_not_idle hidle]
        | true => simp [hj, c.owed_take hidle]
      · simp [hj]
    | advance j =>
      have hsame : (s.onOne i c (.advance j)).owed s.echo = c.owed s.echo := by
        rw [onOne, apply_ite (Connection.owed s.echo), (h i c hc).owed_advance, ite_self]
      exact hsame.trans (List.append_nil _).symm
    | observe =>
      have hsame : (s.onOne i c .observe).owed s.echo = c.owed s.echo := by
        rw [onOne, apply_ite (Connection.owed s.echo), c.owed_retire, ite_self]
      exact hsame.trans (List.append_nil _).symm
    | leave j =>
      rw [onOne, if_neg fun hj => hstay (congrArg Event.leave hj)]
      exact (List.append_nil _).symm
    | _ => exact (List.append_nil _).symm

/-- **Nothing is lost, and nothing is answered twice**: as long as its client stays, what was sent
on a connection and what is in hand there is what was there before, and what was taken since. -/
theorem owed_run (h : s.Serves) (hstay : .leave i ∉ events) :
    (s.run events).owed i = s.owed i ++ (s.taken i events).map s.echo.reply := by
  induction events generalizing s with
  | nil => exact (List.append_nil _).symm
  | cons event events ih =>
    obtain ⟨hfirst, hlater⟩ := not_or.mp (mt List.mem_cons.mpr hstay)
    have hrest : (s.run (event :: events)).owed i = (s.step event).owed i ++
        ((s.step event).taken i events).map s.echo.reply := by
      rw [← (steps_step s event).echo_eq]
      exact ih (h.step event) hlater
    rw [hrest, owed_step h fun he => hfirst he.symm, taken, List.map_append, List.append_assoc]

/-! ### One request -/

theorem exists_of_isIdle (h : s.isIdle i = true) :
    ∃ c, s.connections[i]? = some c ∧ c.isIdle = true := by
  unfold isIdle at h
  cases hc : s.connections[i]? with
  | none =>
    rw [hc] at h
    cases h
  | some c =>
    rw [hc] at h
    exact ⟨c, rfl, h⟩

/-- What becomes of a request that was taken, as long as its client stays: its reply is the next one
on its connection, when its own turns have brought it there; until then it is in hand. -/
theorem request_run {r : Request} (hidle : s.isIdle i = true) (hstay : .leave i ∉ events) :
    let t := s.run (.request i r :: events)
    let answer := (Exchange.begin s.echo r s.now).answer? s.echo (Event.turns i s.now events)
    (t.replies i)[(s.replies i).length]? = answer ∧
      (answer = none → t.replies i = s.replies i ∧ t.inHand i = [r]) := by
  intro t answer
  obtain ⟨c, hc, hcidle⟩ := exists_of_isIdle hidle
  have hstep := getElem?_step hc (.request i r)
  rw [onOne, if_pos rfl, Connection.take_of_idle hcidle] at hstep
  obtain ⟨c', hc', houtcome⟩ := inHand_run hstep rfl hstay
  change t.connections[i]? = some c' at hc'
  rw [replies_of_some hc, replies_of_some hc', inHand_of_some hc']
  change match answer with
    | none => c'.sent = c.sent ∧ ∃ x', c'.exchange = some x' ∧ x'.request = _
    | some reply => c.sent ++ [reply] <+: c'.sent at houtcome
  cases hanswer : answer with
  | none =>
    rw [hanswer] at houtcome
    obtain ⟨hsent, x', hx', hrequest⟩ := houtcome
    rw [Exchange.request_begin] at hrequest
    rw [hsent, Connection.inHand_of_some hx', hrequest]
    exact ⟨List.getElem?_eq_none (Nat.le_refl _), fun _ => ⟨rfl, rfl⟩⟩
  | some reply =>
    rw [hanswer] at houtcome
    obtain ⟨more, hmore⟩ := houtcome
    rw [← hmore, List.append_assoc, List.getElem?_append_right (Nat.le_refl _), Nat.sub_self]
    exact ⟨rfl, nofun⟩

theorem request_answered {r : Request} (hidle : s.isIdle i = true) (hstay : .leave i ∉ events) :
    let t := s.run (.request i r :: events)
    (t.replies i)[(s.replies i).length]? = some (s.echo.reply r) ∨
      t.replies i = s.replies i ∧ t.inHand i = [r] := by
  intro t
  obtain ⟨hplace, hwaiting⟩ := request_run hidle hstay (r := r)
  cases hanswer : (Exchange.begin s.echo r s.now).answer? s.echo (Event.turns i s.now events) with
  | none => exact .inr (hwaiting hanswer)
  | some reply =>
    have hreply := (Exchange.keeps_begin s.echo s.now r).serves.reply_of_answer hanswer
    rw [hanswer, hreply] at hplace
    exact .inl hplace

/-- A request that was taken is answered when the turns of its connection since its delay are enough
for its body. -/
theorem request_answered_of_often {r : Request} (hidle : s.isIdle i = true)
    (hstay : .leave i ∉ events) (hoften : r.body.chunks.length + 2 ≤
      ((Event.turns i s.now events).filter (s.now + s.echo.requestDelay r ≤ ·)).length) :
    ((s.run (.request i r :: events)).replies i)[(s.replies i).length]? =
      some (s.echo.reply r) := by
  have hplace := (request_run hidle hstay (r := r)).1
  obtain ⟨reply, hanswer⟩ := Option.isSome_iff_exists.mp (Exchange.isSome_answer_begin hoften)
  have hreply := (Exchange.keeps_begin s.echo s.now r).serves.reply_of_answer hanswer
  rw [hanswer, hreply] at hplace
  exact hplace

/-- A request that was taken has one reply, which is sent or to come. -/
theorem Serves.owed_request {r : Request} (h : s.Serves) (hidle : s.isIdle i = true)
    (hstay : .leave i ∉ events) :
    let t := s.run (.request i r :: events)
    t.replies i ++ (t.inHand i).map s.echo.reply =
      s.replies i ++ s.echo.reply r ::
        ((s.step (.request i r)).taken i events).map s.echo.reply := by
  intro t
  obtain ⟨c, hc, hcidle⟩ := exists_of_isIdle hidle
  have hnothing : s.inHand i = [] := by
    rw [inHand_of_some hc]
    exact Connection.inHand_of_none (Connection.exchange_of_idle hcidle)
  have htakes : s.takes i (.request i r) = [r] := if_pos ⟨rfl, hidle⟩
  have howed : t.owed i = s.owed i ++ (s.taken i (.request i r :: events)).map s.echo.reply :=
    owed_run h fun hmem => (List.mem_cons.mp hmem).elim nofun hstay
  rw [owed, owed, hnothing, taken, htakes, echo_run] at howed
  rw [howed, List.map_nil, List.append_nil]
  rfl

end Service

end HttpEcho.Http
