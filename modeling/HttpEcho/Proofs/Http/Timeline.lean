import HttpEcho.Proofs.Http.Exchange
import Mathlib.Data.List.Forall2

/-! Requests side by side.

Whatever the order in which several exchanges go on, each of them comes as far as it would have come
alone, at the times at which it went on (`run_eq_alone`). Each starts its body when its own delay is
over and not before, which is `Timeline.Keeps`.

On a prompt clock time does not pass while something can be done. There exchanges are on time
(`Timeline.OnTime`), and what a list of requests comes to is certain: `Completes.eq` for requests
that start together, `InTurn.eq` for requests that wait for each other. -/
namespace HttpEcho.Http

/-! ### One exchange among others -/

namespace Move

/-- When the exchange at a place goes on. -/
def turns (i : Nat) : (now : Nat) → List Move → List Nat
  | _, [] => []
  | now, .pass ms :: rest => turns i (now + ms) rest
  | now, .advance j :: rest => if j = i then now :: turns i now rest else turns i now rest

/-- What a move is for an exchange, as if it were alone; `none` for a move of another. -/
def own (i : Nat) : Move → Option Move
  | .pass ms => some (.pass ms)
  | .advance j => if j = i then some (.advance 0) else none

theorem turns_own (i now : Nat) (moves : List Move) :
    turns 0 now (moves.filterMap (own i)) = turns i now moves := by
  induction moves generalizing now with
  | nil => rfl
  | cons m moves ih =>
    cases m with
    | pass ms => exact ih (now + ms)
    | advance j =>
      by_cases hj : j = i
      · have hown : own i (.advance j) = some (.advance 0) := if_pos hj
        rw [List.filterMap_cons_some hown, turns, turns, if_pos rfl, if_pos hj, ih]
      · have hown : own i (.advance j) = none := if_neg hj
        rw [List.filterMap_cons_none hown, turns, if_neg hj, ih]

/-- Turns that are taken while no time passes. -/
theorem turns_of_advance (i now : Nat) (places : List Nat) :
    turns i now (places.map .advance) = List.replicate (places.count i) now := by
  induction places with
  | nil => rfl
  | cons j places ih =>
    rw [List.map_cons, turns, ih, List.count_cons]
    by_cases hj : j = i
    · simp [hj, List.replicate_succ]
    · simp [hj]

end Move

namespace Timeline
variable {e : Echo} {t : Timeline}

/-- An exchange comes as far as its own turns take it. -/
theorem getElem?_run (e : Echo) (t : Timeline) (moves : List Move) (i : Nat) :
    (t.run e moves).exchanges[i]? =
      t.exchanges[i]?.map fun x => x.advanceAll e (Move.turns i t.now moves) := by
  induction moves generalizing t with
  | nil => exact Option.map_id'.symm
  | cons m moves ih =>
    show ((t.move e m).run e moves).exchanges[i]? = _
    rw [ih]
    cases m with
    | pass ms => rfl
    | advance j =>
      show ((t.exchanges.modify j _)[i]?).map _ = _
      rw [List.getElem?_modify, Move.turns]
      by_cases hj : j = i
      · simp only [hj, if_pos]
        cases t.exchanges[i]? <;> rfl
      · simp only [hj, if_neg, not_false_eq_true]
        cases t.exchanges[i]? <;> rfl

/-- Requests that arrive at a point in time. -/
def startAt (e : Echo) (now : Nat) (rs : List Request) : Timeline :=
  ⟨now, rs.map fun r => Exchange.begin e r now⟩

theorem getElem?_startAt {rs : List Request} {r : Request} {i : Nat} (now : Nat)
    (h : rs[i]? = some r) :
    (startAt e now rs).exchanges[i]? = some (Exchange.begin e r now) := by
  unfold startAt
  rw [List.getElem?_map, h, Option.map_some]

/-- The exchange of a request, after some moves. -/
theorem getElem?_run_startAt {rs : List Request} {r : Request} {i : Nat} (now : Nat)
    (h : rs[i]? = some r) (moves : List Move) :
    ((startAt e now rs).run e moves).exchanges[i]? =
      some ((Exchange.begin e r now).advanceAll e (Move.turns i now moves)) := by
  rw [getElem?_run, getElem?_startAt now h]
  rfl

/-- An exchange among others comes as far as it comes alone. -/
theorem run_eq_alone {rs : List Request} {r : Request} {i : Nat} (now : Nat)
    (h : rs[i]? = some r) (moves : List Move) :
    ((startAt e now rs).run e moves).exchanges[i]? =
      ((startAt e now [r]).run e (moves.filterMap (Move.own i))).exchanges[0]? := by
  have hlone : [r][0]? = some r := rfl
  rw [getElem?_run_startAt now h, getElem?_run_startAt now hlone, Move.turns_own]

end Timeline

/-! ### What happens when -/

/-- What a phase becomes when its exchange goes on, as far as it is about time. -/
inductive Phase.Becomes (now : Nat) : Phase → Phase → Prop
  | early {deadline} : now < deadline → Becomes now (.waiting deadline) (.waiting deadline)
  | due {deadline left got chunks} : deadline ≤ now →
      Becomes now (.waiting deadline) (.taking left got chunks)
  | take {left left' got got' chunks chunks'} :
      Becomes now (.taking left got chunks) (.taking left' got' chunks')
  | finish {left got chunks reply} : Becomes now (.taking left got chunks) (.done reply now)
  | done {reply time} : Becomes now (.done reply time) (.done reply time)

theorem Exchange.becomes_advance (e : Echo) (now : Nat) (x : Exchange) :
    (x.advance e now).started = x.started ∧ x.phase.Becomes now (x.advance e now).phase := by
  obtain ⟨r, started, phase⟩ := x
  unfold Exchange.advance
  cases phase with
  | waiting deadline =>
    by_cases hdue : deadline ≤ now
    · simp only [if_pos hdue]
      exact ⟨trivial, .due hdue⟩
    · simp only [if_neg hdue]
      exact ⟨trivial, .early (Nat.lt_of_not_le hdue)⟩
  | taking left got chunks =>
    cases chunks with
    | nil => exact ⟨rfl, .finish⟩
    | cons c chunks =>
      by_cases hfits : c.length ≤ left
      · simp only [if_pos hfits]
        exact ⟨trivial, .take⟩
      · simp only [if_neg hfits]
        exact ⟨trivial, .finish⟩
  | done reply time => exact ⟨rfl, .done⟩

/-! ### Not before the delay is over -/

/-- Nothing is done before a point in time. -/
inductive Phase.NotBefore (due now : Nat) : Phase → Prop
  | waiting : NotBefore due now (.waiting due)
  | taking {left got chunks} : due ≤ now → NotBefore due now (.taking left got chunks)
  | done {reply time} : due ≤ time → time ≤ now → NotBefore due now (.done reply time)

theorem Phase.NotBefore.later {due now later : Nat} {p : Phase} (h : p.NotBefore due now)
    (hle : now ≤ later) : p.NotBefore due later := by
  cases h with
  | waiting => exact .waiting
  | taking hdue => exact .taking (Nat.le_trans hdue hle)
  | done hdue htime => exact .done hdue (Nat.le_trans htime hle)

theorem Phase.NotBefore.becomes {due now : Nat} {p q : Phase} (h : p.NotBefore due now)
    (hq : p.Becomes now q) : q.NotBefore due now := by
  cases hq with
  | early => exact h
  | due hdue =>
    cases h
    exact .taking hdue
  | take =>
    cases h with
    | taking hdue => exact .taking hdue
  | finish =>
    cases h with
    | taking hdue => exact .done hdue (Nat.le_refl now)
  | done => exact h

/-- An exchange that can only end in the reply to its request. What is not found has its reply. -/
def Exchange.Serves (e : Echo) (r : Request) (x : Exchange) : Prop :=
  match r.route with
  | .echo => x.IsFor e r
  | .notFound => ∃ time, x.phase = .done (e.reply r) time

/-- An exchange as it is at a point in time, for a request that arrived at another. -/
structure Exchange.Keeps (e : Echo) (start now : Nat) (x : Exchange) (r : Request) : Prop where
  serves : x.Serves e r
  started : x.started = start
  notBefore : x.phase.NotBefore (start + e.requestDelay r) now

namespace Exchange
variable {e : Echo} {r : Request} {x : Exchange} {start now : Nat}

theorem Serves.advance (h : x.Serves e r) (now : Nat) : (x.advance e now).Serves e r := by
  unfold Serves at h ⊢
  split at h
  · exact h.advance now
  · obtain ⟨time, hdone⟩ := h
    unfold Exchange.advance
    rw [hdone]
    exact ⟨time, hdone⟩

theorem Serves.reply_of_done (h : x.Serves e r) {reply : Reply} {time : Nat}
    (hdone : x.phase = .done reply time) : reply = e.reply r := by
  unfold Serves at h
  split at h
  · next hroute =>
    unfold Echo.reply Echo.dispatch
    rw [hroute]
    cases h with
    | waiting => cases hdone
    | taking => cases hdone
    | done =>
      cases hdone
      rfl
  · obtain ⟨time, hreply⟩ := h
    rw [hreply] at hdone
    cases hdone
    rfl

theorem requestDelay_of_echo (e : Echo) (h : r.route = .echo) :
    e.requestDelay r = e.transform.delayMs := by
  unfold Echo.requestDelay
  rw [h]

theorem requestDelay_of_notFound (e : Echo) (h : r.route = .notFound) : e.requestDelay r = 0 := by
  unfold Echo.requestDelay
  rw [h]

theorem begin_notFound (e : Echo) (h : r.route = .notFound) (now : Nat) :
    Exchange.begin e r now = ⟨r, now, .done (e.reply r) now⟩ := by
  unfold Exchange.begin
  rw [h]

theorem keeps_begin (e : Echo) (start : Nat) (r : Request) :
    (Exchange.begin e r start).Keeps e start start r := by
  cases hroute : r.route with
  | echo =>
    rw [Exchange.begin_echo e hroute, ← requestDelay_of_echo e hroute]
    refine ⟨?_, rfl, .waiting⟩
    unfold Serves
    rw [hroute]
    exact .waiting
  | notFound =>
    have hnow : start + e.requestDelay r ≤ start := by
      rw [requestDelay_of_notFound e hroute]
      exact Nat.le_refl start
    rw [begin_notFound e hroute]
    refine ⟨?_, rfl, .done hnow (Nat.le_refl start)⟩
    unfold Serves
    rw [hroute]
    exact ⟨start, rfl⟩

theorem Keeps.advance (h : x.Keeps e start now r) : (x.advance e now).Keeps e start now r := by
  obtain ⟨hstarted, hbecomes⟩ := becomes_advance e now x
  exact ⟨h.serves.advance now, hstarted.trans h.started, h.notBefore.becomes hbecomes⟩

theorem Keeps.later {later : Nat} (h : x.Keeps e start now r) (hle : now ≤ later) :
    x.Keeps e start later r :=
  ⟨h.serves, h.started, h.notBefore.later hle⟩

/-- An exchange that is done has its reply, and took no less than its delay. -/
theorem Keeps.of_outcome (h : x.Keeps e start now r) {reply : Reply} {elapsed : Nat}
    (hdone : x.outcome = some (reply, elapsed)) :
    reply = e.reply r ∧ e.requestDelay r ≤ elapsed := by
  obtain ⟨r', started, phase⟩ := x
  have hstarted : started = start := h.started
  cases phase with
  | waiting deadline => cases hdone
  | taking left got chunks => cases hdone
  | done reply' time =>
    have hreply := h.serves.reply_of_done rfl
    cases hdone
    cases h.notBefore with
    | done hdue _ => exact ⟨hreply, Nat.le_sub_of_add_le' (hstarted ▸ hdue)⟩

theorem Keeps.deadline_eq (h : x.Keeps e start now r) {deadline : Nat}
    (hwaiting : x.phase = .waiting deadline) : deadline = start + e.requestDelay r := by
  have hbefore := h.notBefore
  rw [hwaiting] at hbefore
  cases hbefore
  rfl

theorem outcome_isSome_of_stepsLeft (h : x.stepsLeft = 0) : x.outcome.isSome := by
  obtain ⟨r, started, phase⟩ := x
  cases phase with
  | waiting deadline => cases h
  | taking left got chunks => cases h
  | done reply time => rfl

/-- An exchange is done when it went on often enough since its delay was over. -/
theorem Keeps.isSome_outcome_of_advanceAll (h : x.Keeps e start now r) {times : List Nat}
    (hoften : x.stepsLeft ≤ (times.filter (start + e.requestDelay r ≤ ·)).length) :
    (x.advanceAll e times).outcome.isSome := by
  have hdue : x.IsDue (start + e.requestDelay r) :=
    fun deadline hwaiting => Nat.le_of_eq (h.deadline_eq hwaiting)
  have hleft := Exchange.stepsLeft_advanceAll (e := e) hdue times
  exact outcome_isSome_of_stepsLeft (by omega)

theorem stepsLeft_begin_le (e : Echo) (r : Request) (now : Nat) :
    (Exchange.begin e r now).stepsLeft ≤ r.body.chunks.length + 2 := by
  cases hroute : r.route with
  | echo =>
    rw [Exchange.begin_echo e hroute]
    exact Nat.le_refl _
  | notFound =>
    rw [begin_notFound e hroute]
    exact Nat.zero_le _

end Exchange

theorem forall₂_modify {α β : Type} {R : α → β → Prop} {f : α → α} {l : List α} {m : List β}
    (h : List.Forall₂ R l m) (hf : ∀ a b, R a b → R (f a) b) (i : Nat) :
    List.Forall₂ R (l.modify i f) m := by
  induction h generalizing i with
  | nil =>
    rw [List.modify_nil]
    exact .nil
  | @cons a b l m hab htail ih =>
    cases i with
    | zero => exact .cons (hf a b hab) htail
    | succ i => exact .cons hab (ih i)

theorem exists_of_forall₂ {α β : Type} {R : α → β → Prop} {l : List α} {m : List β} {a : α}
    (h : List.Forall₂ R l m) (ha : a ∈ l) : ∃ b ∈ m, R a b := by
  induction h with
  | nil => cases ha
  | @cons a' b l m hab _ ih =>
    rcases List.mem_cons.mp ha with rfl | ha
    · exact ⟨b, List.mem_cons_self, hab⟩
    · obtain ⟨b', hb, hr⟩ := ih ha
      exact ⟨b', List.mem_cons_of_mem b hb, hr⟩

namespace Timeline
variable {e : Echo} {t : Timeline} {rs : List Request} {start : Nat}

/-- Exchanges for requests that arrived at a point in time. -/
def Keeps (e : Echo) (start : Nat) (rs : List Request) (t : Timeline) : Prop :=
  List.Forall₂ (Exchange.Keeps e start t.now) t.exchanges rs

theorem keeps_startAt (e : Echo) (start : Nat) (rs : List Request) :
    (startAt e start rs).Keeps e start rs :=
  List.forall₂_map_left_iff.mpr
    (List.forall₂_same.mpr fun r _ => Exchange.keeps_begin e start r)

theorem Keeps.getElem? (h : t.Keeps e start rs) {i : Nat} {r : Request} (hr : rs[i]? = some r) :
    ∃ x, t.exchanges[i]? = some x ∧ x.Keeps e start t.now r := by
  obtain ⟨hlt, rfl⟩ := List.getElem?_eq_some_iff.mp hr
  have hi : i < t.exchanges.length := h.length_eq ▸ hlt
  exact ⟨t.exchanges[i], List.getElem?_eq_getElem hi, h.get hi hlt⟩

theorem Keeps.move (h : t.Keeps e start rs) (m : Move) : (t.move e m).Keeps e start rs := by
  cases m with
  | pass ms => exact h.imp fun x r hx => hx.later (Nat.le_add_right _ ms)
  | advance i => exact forall₂_modify h (fun x r hx => hx.advance) i

theorem Keeps.run (h : t.Keeps e start rs) (moves : List Move) : (t.run e moves).Keeps e start rs := by
  induction moves generalizing t with
  | nil => exact h
  | cons m moves ih => exact ih (h.move m)

end Timeline

/-! ### On a prompt clock -/

/-- Nothing is left to be done after a point in time. -/
inductive Phase.NotAfter (due now : Nat) : Phase → Prop
  | waiting : now ≤ due → NotAfter due now (.waiting due)
  | taking {left got chunks} : now ≤ due → NotAfter due now (.taking left got chunks)
  | done {reply time} : time ≤ due → NotAfter due now (.done reply time)

theorem Phase.NotBefore.notAfter {due now : Nat} {p : Phase} (h : p.NotBefore due now)
    (hnow : now ≤ due) : p.NotAfter due now := by
  cases h with
  | waiting => exact .waiting hnow
  | taking => exact .taking hnow
  | done _ htime => exact .done (Nat.le_trans htime hnow)

theorem Phase.NotAfter.becomes {due now : Nat} {p q : Phase} (h : p.NotAfter due now)
    (hq : p.Becomes now q) : q.NotAfter due now := by
  cases hq with
  | early => exact h
  | due =>
    cases h with
    | waiting hnow => exact .taking hnow
  | take =>
    cases h with
    | taking hnow => exact .taking hnow
  | finish =>
    cases h with
    | taking hnow => exact .done hnow
  | done => exact h

/-- An exchange that has left nothing to do that could have been done before. -/
structure Exchange.OnTime (e : Echo) (start now : Nat) (x : Exchange) (r : Request) : Prop where
  keeps : x.Keeps e start now r
  notAfter : x.phase.NotAfter (start + e.requestDelay r) now

namespace Exchange
variable {e : Echo} {r : Request} {x : Exchange} {start now : Nat}

/-- An exchange that has nothing to do until a point in time, because it waits. -/
def WaitsUntil (x : Exchange) (time : Nat) : Prop :=
  ∃ deadline, x.phase = .waiting deadline ∧ time ≤ deadline

/-- Time may pass for an exchange that waits, and for one that is done. -/
theorem notAfter_later {due ms : Nat} (h : x.phase.NotAfter due now)
    (hidle : x.outcome.isSome ∨ x.WaitsUntil (now + ms)) :
    x.phase.NotAfter due (now + ms) := by
  obtain ⟨r, started, phase⟩ := x
  cases h with
  | waiting hnow =>
    rcases hidle with hdone | ⟨deadline, hphase, hlater⟩
    · cases hdone
    · cases hphase
      exact .waiting hlater
  | taking hnow =>
    rcases hidle with hdone | ⟨deadline, hphase, -⟩
    · cases hdone
    · cases hphase
  | done htime => exact .done htime

theorem OnTime.advance (h : x.OnTime e start now r) : (x.advance e now).OnTime e start now r :=
  ⟨h.keeps.advance, h.notAfter.becomes (becomes_advance e now x).2⟩

theorem OnTime.later {ms : Nat} (h : x.OnTime e start now r)
    (hidle : x.outcome.isSome ∨ x.WaitsUntil (now + ms)) : x.OnTime e start (now + ms) r :=
  ⟨h.keeps.later (Nat.le_add_right now ms), notAfter_later h.notAfter hidle⟩

/-- An exchange that is on time takes just its delay. -/
theorem OnTime.outcome_eq (h : x.OnTime e start now r) (hdone : x.outcome.isSome) :
    x.outcome = some (e.reply r, e.requestDelay r) ∧ start + e.requestDelay r ≤ now := by
  obtain ⟨⟨hserves, hstarted, hbefore⟩, hafter⟩ := h
  obtain ⟨r', started, phase⟩ := x
  subst hstarted
  cases phase with
  | waiting deadline => cases hdone
  | taking left got chunks => cases hdone
  | done reply time =>
    have hreply := hserves.reply_of_done rfl
    cases hafter with
    | done htime =>
      cases hbefore with
      | done hdue hnow =>
        have hexact : time = started + e.requestDelay r := Nat.le_antisymm htime hdue
        refine ⟨?_, Nat.le_trans hdue hnow⟩
        rw [hreply, hexact]
        exact congrArg (fun elapsed => some (e.reply r, elapsed)) (Nat.add_sub_cancel_left _ _)

end Exchange

namespace Timeline
variable {e : Echo} {t : Timeline} {rs : List Request} {start : Nat}

/-- On a prompt clock time passes only when there is nothing to do but to wait, and it does not pass
beyond what is waited for. -/
def Prompt (t : Timeline) : Move → Prop
  | .advance _ => True
  | .pass ms => (∃ x ∈ t.exchanges, x.WaitsUntil (t.now + ms)) ∧
      ∀ x ∈ t.exchanges, x.outcome.isSome ∨ x.WaitsUntil (t.now + ms)

/-- Moves on a prompt clock. -/
def PromptRun (e : Echo) (t : Timeline) : List Move → Prop
  | [] => True
  | m :: rest => t.Prompt m ∧ (t.move e m).PromptRun e rest

theorem foldl_max_le_iff {a b : Nat} {l : List Nat} :
    l.foldl max a ≤ b ↔ a ≤ b ∧ ∀ n ∈ l, n ≤ b := by
  induction l generalizing a with
  | nil => simp
  | cons n l ih =>
    rw [List.foldl_cons, ih, Nat.max_le, List.forall_mem_cons, and_assoc]

/-- Requests take as long at once as the longest of their delays. -/
theorem atOnce_le_iff {b : Nat} : (e.atOnce rs).2 ≤ b ↔ ∀ r ∈ rs, e.requestDelay r ≤ b := by
  unfold Echo.atOnce
  rw [foldl_max_le_iff, List.forall_mem_map]
  exact and_iff_right (Nat.zero_le b)

/-- Exchanges for requests that arrived at a point in time and are on time. -/
structure OnTime (e : Echo) (start : Nat) (rs : List Request) (t : Timeline) : Prop where
  exchanges : List.Forall₂ (Exchange.OnTime e start t.now) t.exchanges rs
  began : start ≤ t.now
  clock : t.now ≤ start + (e.atOnce rs).2

theorem onTime_startAt (e : Echo) (start : Nat) (rs : List Request) :
    (startAt e start rs).OnTime e start rs where
  exchanges := (keeps_startAt e start rs).imp fun _ _ hx =>
    ⟨hx, hx.notBefore.notAfter (Nat.le_add_right start _)⟩
  began := Nat.le_refl start
  clock := Nat.le_add_right start _

theorem OnTime.move (h : t.OnTime e start rs) {m : Move} (hprompt : t.Prompt m) :
    (t.move e m).OnTime e start rs := by
  cases m with
  | advance i => exact ⟨forall₂_modify h.exchanges (fun x r hx => hx.advance) i, h.began, h.clock⟩
  | pass ms =>
    obtain ⟨⟨x, hx, deadline, hwaiting, hlater⟩, hidle⟩ := hprompt
    have hall := (List.forall₂_and_left _ _).mpr ⟨hidle, h.exchanges⟩
    refine ⟨hall.imp fun x r hx => hx.2.later hx.1, Nat.le_add_right_of_le h.began, ?_⟩
    -- The clock stops at a deadline at the latest, and that is the end of some request's delay.
    obtain ⟨r, hr, hontime⟩ := exists_of_forall₂ h.exchanges hx
    have hlongest := atOnce_le_iff.mp (Nat.le_refl (e.atOnce rs).2) r hr
    rw [hontime.keeps.deadline_eq hwaiting] at hlater
    exact Nat.le_trans hlater (Nat.add_le_add_left hlongest start)

theorem OnTime.run (h : t.OnTime e start rs) {moves : List Move} (hprompt : t.PromptRun e moves) :
    (t.run e moves).OnTime e start rs := by
  induction moves generalizing t with
  | nil => exact h
  | cons m moves ih => exact ih (h.move hprompt.1) hprompt.2

/-- When all is done on a prompt clock, each request took its delay, and all of them together took
as long as the longest one. -/
theorem OnTime.done (h : t.OnTime e start rs) (hdone : ∀ x ∈ t.exchanges, x.outcome.isSome) :
    t.exchanges.map Exchange.outcome = rs.map (fun r => some (e.reply r, e.requestDelay r)) ∧
      t.now = start + (e.atOnce rs).2 := by
  have hall := ((List.forall₂_and_left _ _).mpr ⟨hdone, h.exchanges⟩).imp
    fun x r hx => hx.2.outcome_eq hx.1
  constructor
  · rw [← List.forall₂_eq_eq_eq, List.forall₂_map_left_iff, List.forall₂_map_right_iff]
    exact hall.imp fun x r hx => hx.1
  · refine Nat.le_antisymm h.clock ?_
    have hlongest : (e.atOnce rs).2 ≤ t.now - start := by
      refine atOnce_le_iff.mpr fun r hr => ?_
      obtain ⟨x, -, -, htime⟩ := exists_of_forall₂ hall.flip hr
      omega
    have hbegan := h.began
    omega

end Timeline

/-! ### What a list of requests comes to -/

/-- Requests that arrive at a point in time, and what becomes of them until they are done. -/
structure Completes (e : Echo) (now : Nat) (rs : List Request) (moves : List Move)
    (outs : List Outcome) (finish : Nat) : Prop where
  prompt : (Timeline.startAt e now rs).PromptRun e moves
  outcomes : ((Timeline.startAt e now rs).run e moves).exchanges.map Exchange.outcome =
    outs.map fun o => some (o.reply, o.elapsedMs)
  finish : ((Timeline.startAt e now rs).run e moves).now = finish

/-- Requests each of which arrives when the one before is done. -/
inductive InTurn (e : Echo) : (now : Nat) → List Request → List Outcome → (finish : Nat) → Prop
  | nil {now} : InTurn e now [] [] now
  | cons {now next finish r rs moves out outs} : Completes e now [r] moves [out] next →
      InTurn e next rs outs finish → InTurn e now (r :: rs) (out :: outs) finish

section
variable {e : Echo} {now finish : Nat} {rs : List Request} {moves : List Move}
  {outs : List Outcome}

theorem Completes.of_done (hprompt : (Timeline.startAt e now rs).PromptRun e moves)
    (hdone : ∀ x ∈ ((Timeline.startAt e now rs).run e moves).exchanges, x.outcome.isSome) :
    Completes e now rs moves (e.atOnce rs).1 (now + (e.atOnce rs).2) := by
  obtain ⟨houtcomes, hfinish⟩ :=
    ((Timeline.onTime_startAt e now rs).run hprompt).done hdone
  refine ⟨hprompt, ?_, hfinish⟩
  rw [houtcomes, Echo.atOnce, List.map_map]
  rfl

/-- However prompt moves are ordered, they come to the same. -/
theorem Completes.eq (h : Completes e now rs moves outs finish) :
    outs = (e.atOnce rs).1 ∧ finish = now + (e.atOnce rs).2 := by
  have hdone : ∀ x ∈ ((Timeline.startAt e now rs).run e moves).exchanges, x.outcome.isSome := by
    intro x hx
    have hmem := List.mem_map_of_mem (f := Exchange.outcome) hx
    rw [h.outcomes] at hmem
    obtain ⟨o, -, ho⟩ := List.mem_map.mp hmem
    rw [← ho]
    rfl
  have hsame := Completes.of_done h.prompt hdone
  constructor
  · have hinjective : Function.Injective fun o : Outcome => some (o.reply, o.elapsedMs) := by
      intro a b hab
      cases a
      cases b
      cases hab
      rfl
    exact List.map_injective_iff.mpr hinjective (h.outcomes.symm.trans hsame.outcomes)
  · rw [← h.finish, hsame.finish]

namespace Timeline

theorem promptRun_append {t : Timeline} {a b : List Move} :
    t.PromptRun e (a ++ b) ↔ t.PromptRun e a ∧ (t.run e a).PromptRun e b := by
  induction a generalizing t with
  | nil => exact (and_iff_right trivial).symm
  | cons m a ih => exact (and_congr_right fun _ => ih).trans and_assoc.symm

theorem promptRun_advance (t : Timeline) (places : List Nat) :
    t.PromptRun e (places.map .advance) := by
  induction places generalizing t with
  | nil => trivial
  | cons i places ih => exact ⟨trivial, ih (t.move e (.advance i))⟩

/-- Time passes until the delays are over, if something waits. -/
def wait (e : Echo) (rs : List Request) : List Move :=
  if ∃ r ∈ rs, r.route = .echo then [.pass e.transform.delayMs] else []

theorem promptRun_wait (e : Echo) (now : Nat) (rs : List Request) :
    (startAt e now rs).PromptRun e (wait e rs) := by
  have hwaits : ∀ r, r.route = .echo →
      (Exchange.begin e r now).WaitsUntil (now + e.transform.delayMs) := by
    intro r hroute
    rw [Exchange.begin_echo e hroute]
    exact ⟨_, rfl, Nat.le_refl _⟩
  unfold wait
  split
  · next hsome =>
    obtain ⟨r, hr, hroute⟩ := hsome
    refine ⟨⟨⟨_, List.mem_map_of_mem hr, hwaits r hroute⟩, fun x hx => ?_⟩, trivial⟩
    obtain ⟨r, -, rfl⟩ := List.mem_map.mp hx
    cases hroute : r.route with
    | echo => exact Or.inr (hwaits r hroute)
    | notFound =>
      rw [Exchange.begin_notFound e hroute]
      exact Or.inl rfl
  · trivial

theorem requestDelay_le_now_wait {r : Request} (now : Nat) (hr : r ∈ rs) :
    now + e.requestDelay r ≤ ((startAt e now rs).run e (wait e rs)).now := by
  cases hroute : r.route with
  | echo =>
    have hsome : ∃ r ∈ rs, r.route = .echo := ⟨r, hr, hroute⟩
    unfold wait
    rw [if_pos hsome, Exchange.requestDelay_of_echo e hroute]
    exact Nat.le_refl _
  | notFound =>
    rw [Exchange.requestDelay_of_notFound e hroute]
    exact ((onTime_startAt e now rs).run (promptRun_wait e now rs)).began

/-- How often an exchange has to go on for the longest body. -/
def longestTurns (rs : List Request) : Nat :=
  (rs.map fun r => r.body.chunks.length).foldl max 0 + 2

/-- The places of exchanges, each as often as the longest body needs. -/
def rounds (rs : List Request) : List Nat :=
  (List.range rs.length).flatMap (List.replicate (longestTurns rs))

theorem le_count_rounds {r : Request} {i : Nat} (h : rs[i]? = some r) :
    r.body.chunks.length + 2 ≤ (rounds rs).count i := by
  obtain ⟨hlt, rfl⟩ := List.getElem?_eq_some_iff.mp h
  have hmem : (rs[i]).body.chunks.length ∈ rs.map fun r => r.body.chunks.length :=
    List.mem_map_of_mem (List.getElem_mem hlt)
  have hlength : (rs[i]).body.chunks.length + 2 ≤ longestTurns rs :=
    Nat.add_le_add_right ((foldl_max_le_iff.mp (Nat.le_refl _)).2 _ hmem) 2
  have hmine : (List.replicate (longestTurns rs) i).Sublist (rounds rs) :=
    List.sublist_flatten_of_mem (List.mem_map_of_mem (List.mem_range.mpr hlt))
  have hcount := hmine.count_le i
  rw [List.count_replicate_self] at hcount
  exact Nat.le_trans hlength hcount

/-- Requests that wait as long as they have to, and then go on until they are done. -/
def finishing (e : Echo) (rs : List Request) : List Move :=
  wait e rs ++ (rounds rs).map .advance

theorem turns_finishing (e : Echo) (now : Nat) (rs : List Request) (i : Nat) :
    Move.turns i now (finishing e rs) =
      List.replicate ((rounds rs).count i) ((startAt e now rs).run e (wait e rs)).now := by
  rw [← Move.turns_of_advance]
  unfold finishing wait
  split <;> rfl

theorem isSome_outcome_finishing {x : Exchange}
    (hx : x ∈ ((startAt e now rs).run e (finishing e rs)).exchanges) : x.outcome.isSome := by
  obtain ⟨i, hi, hget⟩ := List.getElem_of_mem hx
  have hkeeps := (keeps_startAt e now rs).run (finishing e rs)
  have hlt : i < rs.length := hkeeps.length_eq ▸ hi
  have hr : rs[i]? = some rs[i] := List.getElem?_eq_getElem hlt
  have hrun := getElem?_run_startAt (e := e) now hr (finishing e rs)
  rw [List.getElem?_eq_getElem hi, hget, turns_finishing] at hrun
  rw [Option.some.inj hrun]
  refine (Exchange.keeps_begin e now rs[i]).isSome_outcome_of_advanceAll ?_
  have hover := requestDelay_le_now_wait (e := e) now (List.getElem_mem hlt)
  rw [List.filter_eq_self.mpr fun n hn =>
    decide_eq_true (List.eq_of_mem_replicate hn ▸ hover), List.length_replicate]
  exact Nat.le_trans (Exchange.stepsLeft_begin_le e rs[i] now) (le_count_rounds hr)

end Timeline

theorem completes_finishing (e : Echo) (now : Nat) (rs : List Request) :
    Completes e now rs (Timeline.finishing e rs) (e.atOnce rs).1 (now + (e.atOnce rs).2) :=
  .of_done (Timeline.promptRun_append.mpr
      ⟨Timeline.promptRun_wait e now rs, Timeline.promptRun_advance _ _⟩)
    fun _ hx => Timeline.isSome_outcome_finishing hx

theorem oneByOne_cons (e : Echo) (r : Request) (rs : List Request) :
    e.oneByOne (r :: rs) =
      (e.alone r :: (e.oneByOne rs).1, e.requestDelay r + (e.oneByOne rs).2) := by
  unfold Echo.oneByOne
  rw [← List.sum_eq_foldl, ← List.sum_eq_foldl, List.map_cons, List.map_cons, List.sum_cons]

theorem atOnce_singleton (e : Echo) (r : Request) :
    e.atOnce [r] = ([e.alone r], e.requestDelay r) := by
  simp [Echo.atOnce]

/-- Requests that wait for each other are done after all their delays. -/
theorem InTurn.eq (h : InTurn e now rs outs finish) :
    outs = (e.oneByOne rs).1 ∧ finish = now + (e.oneByOne rs).2 := by
  induction h with
  | nil => exact ⟨rfl, rfl⟩
  | @cons now next finish r rs moves out outs hfirst _ ih =>
    obtain ⟨hout, hnext⟩ := hfirst.eq
    rw [atOnce_singleton] at hout hnext
    obtain ⟨houts, hfinish⟩ := ih
    rw [oneByOne_cons, houts, hfinish, hnext, Nat.add_assoc]
    exact ⟨congrArg (· :: _) (List.singleton_inj.mp hout), rfl⟩

theorem inTurn_oneByOne (e : Echo) (now : Nat) (rs : List Request) :
    InTurn e now rs (e.oneByOne rs).1 (now + (e.oneByOne rs).2) := by
  induction rs generalizing now with
  | nil => exact .nil
  | cons r rs ih =>
    have hfirst := completes_finishing e now [r]
    rw [atOnce_singleton] at hfirst
    rw [oneByOne_cons, ← Nat.add_assoc]
    exact .cons hfirst (ih _)

theorem atOnce_of_delay {d : Nat} (h : ∀ r ∈ rs, e.requestDelay r = d) (hsome : rs ≠ []) :
    (e.atOnce rs).2 = d := by
  obtain ⟨r, hr⟩ := List.exists_mem_of_ne_nil rs hsome
  refine Nat.le_antisymm (Timeline.atOnce_le_iff.mpr fun r hr => Nat.le_of_eq (h r hr)) ?_
  have hlongest := Timeline.atOnce_le_iff.mp (Nat.le_refl (e.atOnce rs).2) r hr
  rwa [h r hr] at hlongest

theorem oneByOne_of_delay {d : Nat} (h : ∀ r ∈ rs, e.requestDelay r = d) :
    (e.oneByOne rs).2 = rs.length * d := by
  induction rs with
  | nil => exact (Nat.zero_mul d).symm
  | cons r rs ih =>
    obtain ⟨hr, hrs⟩ := List.forall_mem_cons.mp h
    rw [oneByOne_cons, ih hrs, hr, List.length_cons, Nat.succ_mul, Nat.add_comm]

end

theorem requestDelay_of_base64 {s : Settings} (h : s.mode = .base64) (r : Request) :
    (Echo.ofSettings s).requestDelay r = 0 := by
  unfold Echo.requestDelay Echo.ofSettings Transform.ofSettings
  rw [h]
  cases r.route <;> rfl

theorem requestDelay_of_json {s : Settings} (h : s.mode = .json) {r : Request}
    (hroute : r.route = .echo) : (Echo.ofSettings s).requestDelay r = s.delayMs := by
  unfold Echo.requestDelay Echo.ofSettings Transform.ofSettings
  rw [h, hroute]
  rfl

/-- **Requests do not interfere.** Whatever the order in which requests that arrived at once go on,
each comes as far as it would have come alone. It waits until its own delay is over, ends with the
reply that it gets alone, and is done when it went on often enough since its delay was over. So on a
prompt clock it is certain what they come to: at once they take as long as the longest delay, and one
after another as long as all delays. With JSON that is one delay, and one for each; with base64 it is
no time at all. -/
theorem requests_independent (s : Settings) (rs : List Request) :
    let e := Echo.ofSettings s
    (∀ moves i r, rs[i]? = some r →
      ((Timeline.start e rs).run e moves).exchanges[i]? =
        ((Timeline.start e [r]).run e (moves.filterMap (Move.own i))).exchanges[0]? ∧
      ∃ x, ((Timeline.start e rs).run e moves).exchanges[i]? = some x ∧ x.started = 0 ∧
        (∀ deadline, x.phase = .waiting deadline → deadline = e.requestDelay r) ∧
        (∀ reply elapsed, x.outcome = some (reply, elapsed) →
          reply = e.reply r ∧ e.requestDelay r ≤ elapsed) ∧
        (r.body.chunks.length + 2 ≤
            ((Move.turns i 0 moves).filter (e.requestDelay r ≤ ·)).length →
          x.outcome.isSome)) ∧
    (∀ outs finish, (∃ moves, Completes e 0 rs moves outs finish) ↔
      (outs, finish) = e.atOnce rs) ∧
    (∀ outs finish, InTurn e 0 rs outs finish ↔ (outs, finish) = e.oneByOne rs) ∧
    (s.mode = .json → (∀ r ∈ rs, r.route = .echo) →
      (rs ≠ [] → (e.atOnce rs).2 = s.delayMs) ∧ (e.oneByOne rs).2 = rs.length * s.delayMs) ∧
    (s.mode = .base64 → (e.atOnce rs).2 = 0 ∧ (e.oneByOne rs).2 = 0) := by
  intro e
  refine ⟨fun moves i r hr => ⟨Timeline.run_eq_alone 0 hr moves, ?_⟩, ?_, ?_, ?_, ?_⟩
  · obtain ⟨x, hx, hkeeps⟩ := ((Timeline.keeps_startAt e 0 rs).run moves).getElem? hr
    have hrun := Timeline.getElem?_run_startAt (e := e) 0 hr moves
    refine ⟨x, hx, hkeeps.started, fun deadline hwaiting => ?_,
      fun reply elapsed hdone => hkeeps.of_outcome hdone, fun hoften => ?_⟩
    · rw [← Nat.zero_add (e.requestDelay r)]
      exact hkeeps.deadline_eq hwaiting
    · rw [Option.some.inj (hx.symm.trans hrun)]
      refine (Exchange.keeps_begin e 0 r).isSome_outcome_of_advanceAll ?_
      rw [Nat.zero_add]
      exact Nat.le_trans (Exchange.stepsLeft_begin_le e r 0) hoften
  · intro outs finish
    constructor
    · rintro ⟨moves, h⟩
      obtain ⟨rfl, rfl⟩ := h.eq
      rw [Nat.zero_add]
    · intro h
      have hfinishing := completes_finishing e 0 rs
      rw [Nat.zero_add, ← h] at hfinishing
      exact ⟨_, hfinishing⟩
  · intro outs finish
    constructor
    · intro h
      obtain ⟨rfl, rfl⟩ := h.eq
      rw [Nat.zero_add]
    · intro h
      have hturns := inTurn_oneByOne e 0 rs
      rwa [Nat.zero_add, ← h] at hturns
  · intro hjson hroutes
    have hdelay : ∀ r ∈ rs, e.requestDelay r = s.delayMs :=
      fun r hr => requestDelay_of_json hjson (hroutes r hr)
    exact ⟨atOnce_of_delay hdelay, oneByOne_of_delay hdelay⟩
  · intro hbase64
    have hdelay : ∀ r ∈ rs, e.requestDelay r = 0 := fun r _ => requestDelay_of_base64 hbase64 r
    refine ⟨Nat.le_zero.mp (Timeline.atOnce_le_iff.mpr fun r hr => Nat.le_of_eq (hdelay r hr)), ?_⟩
    rw [oneByOne_of_delay hdelay, Nat.mul_zero]

end HttpEcho.Http
