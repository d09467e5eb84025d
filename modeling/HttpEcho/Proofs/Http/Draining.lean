import HttpEcho.Proofs.Http.Connection
import HttpEcho.Proofs.StopSignal

/-! How a service comes to its end.

A service serves until it sees its stop signal; from then on it only finishes what it has in hand.
`Connection.Stands` says how its connections stand meanwhile: once it has seen the signal none is
idle, so none takes a request, and when it has stopped all are closed. So every request that was
taken is answered before the service stops, and as it would have been without the signal:
`run_drains`. -/
namespace HttpEcho.Http

/-- The stop signal is given, or cannot be given any more. -/
def Event.isShutdown : Event → Bool
  | .trigger => true
  | .release => true
  | _ => false

theorem Event.turns_filter (i now : Nat) (events : List Event) :
    turns i now (events.filter (!·.isShutdown)) = turns i now events := by
  induction events generalizing now with
  | nil => rfl
  | cons event events ih =>
    cases event with
    | advance j =>
      rw [List.filter_cons_of_pos rfl, turns, turns, ih]
    | _ => exact ih _

/-! ### How connections stand -/

/-- How a connection stands at a stage of its service. -/
structure Connection.Stands (stage : Stage) (c : Connection) : Prop where
  apart : c.closed = true → c.exchange = none
  closing : stage ≠ .serving → c.isIdle = false
  stopped : stage = .stopped → c.closed = true

namespace Connection
variable {stage : Stage} {c : Connection} {e : Echo} {now : Nat}

theorem isIdle_of_closed (h : c.closed = true) : c.isIdle = false := by
  rw [isIdle, h, Bool.true_or, Bool.not_true]

theorem Stands.take (h : c.Stands stage) (r : Request) : (c.take e now r).Stands stage := by
  cases hidle : c.isIdle with
  | false =>
    rw [take_of_not_idle hidle]
    exact h
  | true =>
    rw [take_of_idle hidle]
    have hopen : c.closed ≠ true := fun hclosed => by
      rw [isIdle_of_closed hclosed] at hidle
      cases hidle
    refine ⟨fun hclosed => absurd hclosed hopen, fun _ => isIdle_of_some rfl, fun hstopped => ?_⟩
    exact h.stopped hstopped

theorem Stands.advance (h : c.Stands stage) :
    (c.advance e now (stage ≠ .serving)).Stands stage := by
  cases hx : c.exchange with
  | none =>
    rw [advance_of_none hx]
    exact h
  | some x =>
    have hopen : c.closed ≠ true := fun hclosed => by
      rw [h.apart hclosed] at hx
      cases hx
    cases hout : (x.advance e now).outcome with
    | none =>
      rw [advance_unfinished hx hout]
      exact ⟨fun hclosed => absurd hclosed hopen, fun _ => isIdle_of_some rfl, h.stopped⟩
    | some out =>
      rw [advance_finished hx hout]
      refine ⟨fun _ => rfl, fun hstage => ?_, fun hstopped => ?_⟩
      · exact isIdle_of_closed (decide_eq_true hstage)
      · exact decide_eq_true fun hserving => by rw [hstopped] at hserving; cases hserving

theorem stands_leave (c : Connection) (stage : Stage) : c.leave.Stands stage :=
  ⟨fun _ => rfl, fun _ => isIdle_of_closed rfl, fun _ => rfl⟩

theorem Stands.retire (h : c.Stands stage) : c.retire.Stands .draining := by
  cases hx : c.exchange with
  | none =>
    rw [retire_of_none hx]
    exact ⟨fun _ => hx, fun _ => isIdle_of_closed rfl, nofun⟩
  | some x =>
    rw [retire_of_some hx]
    exact ⟨h.apart, fun _ => isIdle_of_some hx, nofun⟩

end Connection

theorem forall_mem_modify {α : Type} {P : α → Prop} {f : α → α} {l : List α} (h : ∀ a ∈ l, P a)
    (hf : ∀ a, P a → P (f a)) (i : Nat) : ∀ a ∈ l.modify i f, P a := by
  intro a ha
  obtain ⟨n, hn⟩ := List.mem_iff_getElem?.mp ha
  rw [List.getElem?_modify] at hn
  obtain ⟨b, hb, rfl⟩ := Option.map_eq_some_iff.mp hn
  have hpb : P b := h b (List.mem_of_getElem? hb)
  split
  · exact hf b hpb
  · exact hpb

namespace Service
variable {s t : Service} {event : Event} {events : List Event} {i : Nat}

/-- How the connections of a service stand. -/
def Stands (s : Service) : Prop :=
  ∀ c ∈ s.connections, c.Stands s.stage

theorem Stands.steps (h : s.Stands) (hsteps : s.Steps event t) : t.Stands := by
  cases hsteps with
  | connect hserving =>
    refine List.forall_mem_append.mpr ⟨h, ?_⟩
    refine List.forall_mem_singleton.mpr ⟨nofun, fun hstage => absurd hserving hstage, ?_⟩
    intro hstopped
    rw [show s.stage = .stopped from hstopped] at hserving
    cases hserving
  | request j r => exact forall_mem_modify h (fun c hc => hc.take r) j
  | advance j => exact forall_mem_modify h (fun c hc => hc.advance) j
  | leave j => exact forall_mem_modify h (fun c _ => c.stands_leave s.stage) j
  | observe =>
    refine List.forall_mem_map.mpr fun c hc => ?_
    exact (h c hc).retire
  | finish hstage hclosed =>
    intro c hc
    refine ⟨(h c hc).apart, fun _ => (h c hc).closing ?_, fun _ => List.all_eq_true.mp hclosed c hc⟩
    rw [hstage]
    nofun
  | _ => exact h

theorem Stands.run (h : s.Stands) (events : List Event) : (s.run events).Stands := by
  induction events generalizing s with
  | nil => exact h
  | cons event events ih => exact ih (h.steps (steps_step s event))

theorem stands_ofEcho (e : Echo) : (ofEcho e).Stands :=
  fun _ hc => absurd hc List.not_mem_nil

/-! ### From stage to stage -/

theorem Steps.stage_ne (h : s.Steps event t) (hstage : s.stage ≠ .serving) :
    t.stage ≠ .serving := by
  cases h with
  | observe => nofun
  | finish => nofun
  | _ => exact hstage

/-- A service that has seen its stop signal accepts no connection. -/
theorem Steps.length_eq (h : s.Steps event t) (hstage : s.stage ≠ .serving) :
    t.connections.length = s.connections.length := by
  cases h with
  | connect hserving => exact absurd hserving hstage
  | request j r => exact List.length_modify ..
  | advance j => exact List.length_modify ..
  | leave j => exact List.length_modify ..
  | observe => exact List.length_map ..
  | _ => rfl

theorem Stands.isIdle_eq_false (h : s.Stands) (hstage : s.stage ≠ .serving) :
    s.isIdle i = false := by
  unfold isIdle
  cases hc : s.connections[i]? with
  | none => rfl
  | some c => exact (h c (List.mem_of_getElem? hc)).closing hstage

/-- A service that has seen its stop signal accepts no connection any more, and takes no request. -/
theorem Stands.refuses (h : s.Stands) (hstage : s.stage ≠ .serving) (events : List Event) :
    (s.run events).connections.length = s.connections.length ∧
      ∀ i, s.taken i events = [] := by
  induction events generalizing s with
  | nil => exact ⟨rfl, fun i => rfl⟩
  | cons event events ih =>
    have hsteps := steps_step s event
    obtain ⟨hlength, htaken⟩ := ih (h.steps hsteps) (hsteps.stage_ne hstage)
    refine ⟨hlength.trans (hsteps.length_eq hstage), fun i => ?_⟩
    have hnone : s.takes i event = [] := by
      cases event with
      | request j r =>
        refine if_neg fun hidle => ?_
        rw [h.isIdle_eq_false hstage] at hidle
        exact Bool.noConfusion hidle.2
      | _ => rfl
    rw [taken, hnone, htaken]
    rfl

theorem inHand_eq_nil_iff : (∀ i, s.inHand i = []) ↔ ∀ c ∈ s.connections, c.exchange = none := by
  constructor
  · intro h c hc
    obtain ⟨i, hi⟩ := List.mem_iff_getElem?.mp hc
    have hnothing := h i
    rw [inHand_of_some hi] at hnothing
    cases hx : c.exchange with
    | none => rfl
    | some x =>
      rw [Connection.inHand_of_some hx] at hnothing
      cases hnothing
  · intro h i
    cases hc : s.connections[i]? with
    | none =>
      rw [inHand, hc]
      rfl
    | some c =>
      rw [inHand_of_some hc]
      exact Connection.inHand_of_none (h c (List.mem_of_getElem? hc))

/-- When a service has stopped nothing is in hand. -/
theorem Stands.inHand_of_stopped (h : s.Stands) (hstage : s.stage = .stopped) (i : Nat) :
    s.inHand i = [] :=
  inHand_eq_nil_iff.mpr (fun c hc => (h c hc).apart ((h c hc).stopped hstage)) i

/-- A service that drains can stop when nothing is in hand, and not before. -/
theorem Stands.finish_iff (h : s.Stands) (hstage : s.stage = .draining) :
    (s.step .finish).stage = .stopped ↔ ∀ i, s.inHand i = [] := by
  rw [inHand_eq_nil_iff]
  have hsteps := steps_step s .finish
  generalize s.step .finish = t at hsteps
  cases hsteps with
  | finish _ hclosed =>
    exact iff_of_true rfl fun c hc => (h c hc).apart (List.all_eq_true.mp hclosed c hc)
  | unfinished hno =>
    refine iff_of_false (by rw [hstage]; nofun) fun hnone => hno ⟨hstage, ?_⟩
    refine List.all_eq_true.mpr fun c hc => ?_
    have hidle := (h c hc).closing (by rw [hstage]; nofun)
    rwa [Connection.isIdle, hnone c hc, Option.isSome_none, Bool.or_false,
      Bool.not_eq_false'] at hidle

/-- A service sees that it is to stop when the signal was given, however often, or cannot be given
any more. -/
theorem observe_iff (e : Echo) (hserving : ((ofEcho e).run events).stage = .serving) :
    (((ofEcho e).run events).step .observe).stage = .draining ↔
      .trigger ∈ events ∨ .release ∈ events := by
  rw [← mustStop_run_iff e hserving]
  have hsteps := steps_step ((ofEcho e).run events) .observe
  generalize ((ofEcho e).run events).step .observe = t at hsteps
  cases hsteps with
  | observe _ hstop => exact iff_of_true rfl hstop
  | unobserved hno =>
    refine iff_of_false (by rw [hserving]; nofun) fun hstop => hno ⟨hserving, hstop⟩

theorem run_append (s : Service) (a b : List Event) : s.run (a ++ b) = (s.run a).run b :=
  List.foldl_append

/-- Nothing but the stop signal ends the service. -/
theorem shutdown_of_stage_ne (e : Echo) (h : ((ofEcho e).run events).stage ≠ .serving) :
    .trigger ∈ events ∨ .release ∈ events := by
  induction events using List.reverseRecOn with
  | nil => exact absurd rfl h
  | append_singleton events event ih =>
    rw [run_append] at h
    refine Or.imp (List.mem_append_left _) (List.mem_append_left _) ?_
    by_cases hserving : ((ofEcho e).run events).stage = .serving
    · have hsteps := steps_step ((ofEcho e).run events) event
      change (((ofEcho e).run events).step event).stage ≠ .serving at h
      generalize ((ofEcho e).run events).step event = t at hsteps h
      cases hsteps with
      | observe _ hstop => exact (mustStop_run_iff e hserving).mp hstop
      | finish hdraining =>
        rw [hserving] at hdraining
        cases hdraining
      | _ => exact absurd hserving h
    · exact ih hserving

/-! ### The same without a stop signal -/

/-- The signal makes no difference to a step that leaves the service serving. -/
theorem step_signal (hserving : (s.step event).stage = .serving) {signal : StopSignal}
    (hcalm : Service.mustStop { s with signal } = false) :
    ∃ signal', Service.step { s with signal } event = { s.step event with signal := signal' } := by
  have hbefore := (step_of_serving hserving).1
  cases event with
  | connect =>
    refine ⟨signal, ?_⟩
    unfold step
    simp only [hbefore, if_true]
  | observe =>
    have hs : s.step .observe = s := by
      have hsteps := steps_step s .observe
      generalize s.step .observe = t at hsteps hserving ⊢
      cases hsteps with
      | observe => cases hserving
      | unobserved => rfl
    rw [hs]
    refine ⟨signal, if_neg fun hstop => ?_⟩
    rw [hcalm] at hstop
    cases hstop.2
  | finish =>
    have hno : ¬ s.stage = .draining := by
      rw [hbefore]
      nofun
    have hs : s.step .finish = s := if_neg fun hend => hno hend.1
    rw [hs]
    exact ⟨signal, if_neg fun hend => hno hend.1⟩
  | _ => exact ⟨_, rfl⟩

/-- A service that still serves is, but for its signal, as it would be without a stop signal. -/
theorem run_calm (e : Echo) (hserving : ((ofEcho e).run events).stage = .serving) :
    ∃ signal, (ofEcho e).run (events.filter (!·.isShutdown)) =
      { (ofEcho e).run events with signal } := by
  induction events using List.reverseRecOn with
  | nil => exact ⟨_, rfl⟩
  | append_singleton events event ih =>
    rw [run_append] at hserving ⊢
    change (((ofEcho e).run events).step event).stage = .serving at hserving
    change ∃ signal, _ = { ((ofEcho e).run events).step event with signal }
    have hbefore := (step_of_serving hserving).1
    obtain ⟨signal, hcalm⟩ := ih hbefore
    rw [List.filter_append]
    cases hshutdown : event.isShutdown with
    | true =>
      rw [List.filter_cons_of_neg (by rw [hshutdown]; decide), List.filter_nil, List.append_nil,
        hcalm]
      cases event with
      | trigger => exact ⟨signal, rfl⟩
      | release => exact ⟨signal, rfl⟩
      | _ => cases hshutdown
    | false =>
      rw [List.filter_cons_of_pos (by rw [hshutdown]; decide), List.filter_nil, run_append, hcalm]
      refine step_signal hserving (Bool.not_eq_true _ ▸ fun hstop => ?_)
      rw [← hcalm] at hstop
      have hcalmly : ((ofEcho e).run (events.filter (!·.isShutdown))).stage = .serving := by
        rw [hcalm]
        exact hbefore
      rcases (mustStop_run_iff e hcalmly).mp hstop with hmem | hmem
      · cases (List.mem_filter.mp hmem).2
      · cases (List.mem_filter.mp hmem).2

/-- A request that was taken is answered as it would be without a stop signal, at the same turn. -/
theorem request_calm (e : Echo) {before after : List Event} {r : Request}
    (hidle : ((ofEcho e).run before).isIdle i = true) (hstay : .leave i ∉ after) :
    ((((ofEcho e).run before).run (.request i r :: after)).replies i)[
        (((ofEcho e).run before).replies i).length]? =
      (((ofEcho e).run ((before ++ .request i r :: after).filter (!·.isShutdown))).replies i)[
        (((ofEcho e).run before).replies i).length]? := by
  have hserving : ((ofEcho e).run before).stage = .serving := by
    by_contra hstage
    rw [((stands_ofEcho e).run before).isIdle_eq_false hstage] at hidle
    cases hidle
  obtain ⟨signal, hcalm⟩ := run_calm e hserving
  have hstay' : .leave i ∉ after.filter (!·.isShutdown) :=
    fun hmem => hstay (List.mem_filter.mp hmem).1
  rw [List.filter_append, List.filter_cons_of_pos rfl, run_append, hcalm]
  have hloud := (request_run hidle hstay (r := r)).1
  have hquiet := (request_run (s := { (ofEcho e).run before with signal }) hidle hstay' (r := r)).1
  rw [hloud]
  refine Eq.trans ?_ hquiet.symm
  rw [Event.turns_filter]

/-- **A service that is to stop answers what it has in hand, and nothing else.** Connections,
requests, turns and the stop signal may come in any order. A request that was taken has one reply,
as long as its client stays: it is the next one on its connection, and until it is sent the request
is in hand. The run without the stop signal sends the same there at the same turn. It was sent when
the service has stopped, and once the turns since its delay are enough for its body. A service that
has seen the signal accepts no connection and takes no request, and it stops when nothing is in hand
and not before. What makes it stop is the signal alone, given once, or often, or never to be
given. -/
theorem run_drains (e : Echo) (events : List Event) :
    let s := (ofEcho e).run events
    (∀ before i r after, events = before ++ .request i r :: after →
      let u := (ofEcho e).run before
      u.isIdle i = true → .leave i ∉ after →
        s.replies i ++ (s.inHand i).map e.reply =
          u.replies i ++ e.reply r :: ((u.step (.request i r)).taken i after).map e.reply ∧
        ((s.replies i)[(u.replies i).length]? = some (e.reply r) ∨
          s.replies i = u.replies i ∧ s.inHand i = [r]) ∧
        (s.replies i)[(u.replies i).length]? =
          (((ofEcho e).run (events.filter (!·.isShutdown))).replies i)[(u.replies i).length]? ∧
        (s.stage = .stopped → (s.replies i)[(u.replies i).length]? = some (e.reply r)) ∧
        (r.body.chunks.length + 2 ≤
            ((Event.turns i u.now after).filter (u.now + e.requestDelay r ≤ ·)).length →
          (s.replies i)[(u.replies i).length]? = some (e.reply r))) ∧
    (s.stage ≠ .serving → ∀ later, (s.run later).connections.length = s.connections.length ∧
      ∀ i, s.taken i later = []) ∧
    (s.stage = .stopped → ∀ i, s.inHand i = []) ∧
    (s.stage = .draining → ((s.step .finish).stage = .stopped ↔ ∀ i, s.inHand i = [])) ∧
    (s.stage = .serving → ((s.step .observe).stage = .draining ↔
      .trigger ∈ events ∨ .release ∈ events)) ∧
    (s.stage ≠ .serving → .trigger ∈ events ∨ .release ∈ events) := by
  intro s
  have hstands : s.Stands := (stands_ofEcho e).run events
  refine ⟨?_, fun hstage => hstands.refuses hstage, hstands.inHand_of_stopped, hstands.finish_iff,
    observe_iff e, shutdown_of_stage_ne e⟩
  intro before i r after hevents u hidle hstay
  have hserves : u.Serves := (serves_ofEcho e).run before
  have hecho : u.echo = e := echo_run (ofEcho e) before
  have hs : s = u.run (.request i r :: after) := by
    show (ofEcho e).run events = _
    rw [hevents, run_append]
  have howed := hserves.owed_request hidle hstay (r := r)
  have hanswered := request_answered hidle hstay (r := r)
  have hoften := request_answered_of_often hidle hstay (r := r)
  rw [hecho] at howed hanswered hoften
  rw [hs, hevents]
  refine ⟨howed, hanswered, request_calm e hidle hstay, fun hstage => ?_, hoften⟩
  refine hanswered.resolve_right fun ⟨_, hwaiting⟩ => ?_
  rw [← hs] at hwaiting hstage
  rw [hstands.inHand_of_stopped hstage] at hwaiting
  cases hwaiting

-- A request is in hand when the signal, given twice, is seen; a third client comes too late.
example :
    let r : Request := ⟨⟨['P', 'U', 'T'], by decide⟩, .origin ⟨[0x2F], none⟩, {}, .full [0x78]⟩
    let s := (ofEcho ⟨.base64, 16⟩).run [.connect, .connect, .request 1 r, .advance 1, .trigger,
      .trigger, .observe, .finish, .connect, .request 0 r, .request 2 r, .advance 1, .advance 1,
      .finish]
    s.stage = .stopped ∧ s.connections.map (·.sent.map (·.status)) = [[], [200]] := by
  decide

end Service

end HttpEcho.Http
