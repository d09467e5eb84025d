import HttpEcho.Http.Timeline
import HttpEcho.Proofs.Http.Body

/-! An exchange from its beginning to its end.

The answer is put together before the body is known to be readable, so it matters that a body which
turns out not to be leaves no trace. `respond_failsOpen` says so of the answer as a whole, and of the
exchange that makes it chunk by chunk: at whatever times it goes on, it ends, and with the answer
that the whole body gets. What carries this from step to step is `Exchange.IsFor`: what is left to
read of a body decides what all of it does. -/
namespace HttpEcho.Http

/-- An exchange goes on at several points in time. -/
def Exchange.advanceAll (e : Echo) (x : Exchange) (times : List Nat) : Exchange :=
  times.foldl (fun x now => x.advance e now) x

/-! ### Safety -/

/-- An exchange that can only end in the answer to its request: if it has taken some of the body,
the rest is read as the whole is. -/
inductive Exchange.IsFor (e : Echo) (r : Request) : Exchange → Prop where
  | waiting {started deadline} : IsFor e r ⟨r, started, .waiting deadline⟩
  | taking {started left got chunks} :
      Body.gather r.body.failure left got chunks = r.body.read e.maxBodyBytes →
        IsFor e r ⟨r, started, .taking left got chunks⟩
  | done {started time} :
      IsFor e r ⟨r, started, .done ((e.respond r.headers r.body).toReply r.method) time⟩

/-- The reply to the octets that were read is the answer. -/
theorem replyWith_octets (e : Echo) (r : Request) {octets : List UInt8}
    (h : r.body.octets e.maxBodyBytes = octets) :
    Exchange.replyWith e r octets = (e.respond r.headers r.body).toReply r.method := by
  rw [← h]
  rfl

theorem Exchange.IsFor.advance {e : Echo} {r : Request} {x : Exchange} (h : x.IsFor e r)
    (now : Nat) : (x.advance e now).IsFor e r := by
  cases h with
  | @waiting started deadline =>
    unfold Exchange.advance
    by_cases hnow : deadline ≤ now
    · simp only [if_pos hnow]
      exact .taking rfl
    · simp only [if_neg hnow]
      exact .waiting
  | @taking started left got chunks hrest =>
    cases chunks with
    | nil =>
      unfold Exchange.advance
      simp only
      rw [replyWith_octets]
      · exact .done
      unfold Body.octets
      rw [← hrest]
      unfold Body.gather
      cases r.body.failure <;> rfl
    | cons c chunks =>
      unfold Exchange.advance
      unfold Body.gather at hrest
      by_cases hfits : c.length ≤ left
      · simp only [if_pos hfits] at hrest ⊢
        exact .taking hrest
      · simp only [if_neg hfits] at hrest ⊢
        rw [replyWith_octets e r (Body.octets_of_error hrest.symm)]
        exact .done
  | done => exact .done

theorem Exchange.IsFor.advanceAll {e : Echo} {r : Request} {x : Exchange} (h : x.IsFor e r)
    (times : List Nat) : (x.advanceAll e times).IsFor e r := by
  induction times generalizing x with
  | nil => exact h
  | cons now times ih => exact ih (h.advance now)

theorem Exchange.begin_echo (e : Echo) {r : Request} (h : r.route = .echo) (now : Nat) :
    Exchange.begin e r now = ⟨r, now, .waiting (now + e.transform.delayMs)⟩ := by
  unfold Exchange.begin
  rw [h]

/-! ### Progress -/

/-- How often an exchange has to go on until it is done, once its delay is over. -/
def Exchange.stepsLeft (x : Exchange) : Nat :=
  match x.phase with
  | .waiting _ => x.request.body.chunks.length + 2
  | .taking _ _ chunks => chunks.length + 1
  | .done .. => 0

/-- The delay of an exchange is over. -/
def Exchange.IsDue (x : Exchange) (now : Nat) : Prop :=
  ∀ deadline, x.phase = .waiting deadline → deadline ≤ now

theorem Exchange.stepsLeft_advance {e : Echo} {x : Exchange} {now : Nat} (h : x.IsDue now) :
    (x.advance e now).stepsLeft ≤ x.stepsLeft - 1 ∧ ∀ later, (x.advance e now).IsDue later := by
  obtain ⟨r, started, phase⟩ := x
  cases phase with
  | waiting deadline =>
    unfold Exchange.advance
    simp only [if_pos (h deadline rfl)]
    exact ⟨Nat.le_refl _, fun later d hd => by cases hd⟩
  | taking left got chunks =>
    cases chunks with
    | nil => exact ⟨Nat.le_refl _, fun later d hd => by cases hd⟩
    | cons c chunks =>
      unfold Exchange.advance
      by_cases hfits : c.length ≤ left
      · simp only [if_pos hfits]
        exact ⟨Nat.le_refl _, fun later d hd => by cases hd⟩
      · simp only [if_neg hfits]
        exact ⟨Nat.zero_le _, fun later d hd => by cases hd⟩
  | done reply time => exact ⟨Nat.le_refl _, fun later d hd => by cases hd⟩

theorem Exchange.advance_of_not_isDue {e : Echo} {x : Exchange} {now : Nat} (h : ¬ x.IsDue now) :
    x.advance e now = x := by
  obtain ⟨r, started, phase⟩ := x
  cases phase with
  | waiting deadline =>
    refine if_neg fun hdue => h fun d hd => ?_
    cases hd
    exact hdue
  | taking left got chunks => exact absurd (fun d hd => by cases hd) h
  | done reply time => rfl

/-- An exchange that goes on too early is none the worse for it. -/
theorem Exchange.stepsLeft_advanceAll {e : Echo} {x : Exchange} {due : Nat} (hdue : x.IsDue due)
    (times : List Nat) :
    (x.advanceAll e times).stepsLeft ≤ x.stepsLeft - (times.filter (due ≤ ·)).length := by
  induction times generalizing x with
  | nil => exact Nat.le_refl _
  | cons now times ih =>
    show ((x.advance e now).advanceAll e times).stepsLeft ≤ _
    by_cases hnow : x.IsDue now
    · obtain ⟨hless, hlater⟩ := Exchange.stepsLeft_advance (e := e) hnow
      have hrest := ih (hlater due)
      rw [List.filter_cons]
      split
      · rw [List.length_cons]
        omega
      · omega
    · have hearly : ¬ due ≤ now := fun h => hnow fun d hd => Nat.le_trans (hdue d hd) h
      rw [Exchange.advance_of_not_isDue hnow, List.filter_cons_of_neg (by simpa using hearly)]
      exact ih hdue

theorem Exchange.IsFor.done_of_stepsLeft {e : Echo} {r : Request} {x : Exchange}
    (h : x.IsFor e r) (hsteps : x.stepsLeft = 0) :
    ∃ time, x.phase = .done ((e.respond r.headers r.body).toReply r.method) time := by
  cases h with
  | waiting => cases hsteps
  | taking => cases hsteps
  | done => exact ⟨_, rfl⟩

theorem Exchange.done_of_advanceAll {e : Echo} {r : Request} {start : Nat} {times : List Nat}
    (hroute : r.route = .echo) (hdelay : ∀ now ∈ times, start + e.transform.delayMs ≤ now)
    (hsteps : r.body.chunks.length + 2 ≤ times.length) :
    ∃ time, ((Exchange.begin e r start).advanceAll e times).phase =
      .done ((e.respond r.headers r.body).toReply r.method) time := by
  rw [Exchange.begin_echo e hroute]
  refine (Exchange.IsFor.waiting.advanceAll times).done_of_stepsLeft (Nat.le_zero.mp ?_)
  have hdue : Exchange.IsDue ⟨r, start, .waiting (start + e.transform.delayMs)⟩
      (start + e.transform.delayMs) := by
    intro deadline hdeadline
    cases hdeadline
    exact Nat.le_refl _
  have hall : times.filter (start + e.transform.delayMs ≤ ·) = times :=
    List.filter_eq_self.mpr fun now hnow => decide_eq_true (hdelay now hnow)
  have hleft := Exchange.stepsLeft_advanceAll (e := e) hdue times
  rw [hall] at hleft
  exact Nat.le_trans hleft (Nat.le_of_eq (Nat.sub_eq_zero_of_le hsteps))

theorem Exchange.reply_of_done {e : Echo} {r : Request} {start time : Nat} {times : List Nat}
    {reply : Reply} (hroute : r.route = .echo)
    (hdone : ((Exchange.begin e r start).advanceAll e times).phase = .done reply time) :
    reply = (e.respond r.headers r.body).toReply r.method := by
  have hfor : ((Exchange.begin e r start).advanceAll e times).IsFor e r := by
    rw [Exchange.begin_echo e hroute]
    exact Exchange.IsFor.waiting.advanceAll times
  generalize (Exchange.begin e r start).advanceAll e times = x at hfor hdone
  cases hfor with
  | waiting => cases hdone
  | taking => cases hdone
  | done =>
    cases hdone
    rfl

/-! ### The answer -/

theorem respond_eq (e : Echo) (h : Headers) (b : Body) : e.respond h b =
    ⟨200, some plainText,
      (h.write #[]).toList ++ e.transform.apply (b.octets e.maxBodyBytes)⟩ := by
  unfold Echo.respond Echo.body
  rw [Buffer.toList_octets]

theorem respond_of_unreadable {e : Echo} (h : Headers) {b : Body}
    (hb : b.Unreadable e.maxBodyBytes) : e.respond h b = e.respond h {} := by
  unfold Echo.respond
  rw [Body.octets_of_unreadable hb]
  rfl

theorem normalize_nil : Json.normalize [] = Utf8.encode ['n', 'u', 'l', 'l'] := by
  decide

/-- **An echo fails open, and lets nothing through.** Whatever the headers and the body are, the
answer is a plain text of status 200: the dump, and what the octets that were read become. Those are
all of the body or, if it breaks off or is too long at some point, none: then the answer is the one
to the same headers without a body, which is the dump alone, or the dump and `null`. An exchange that
takes the body chunk by chunk, whenever it goes on, ends with this answer and no other. -/
theorem respond_failsOpen (e : Echo) (h : Headers) (b : Body) :
    e.respond h b = ⟨200, some "text/plain; charset=utf-8",
      (h.write #[]).toList ++ e.transform.apply (b.octets e.maxBodyBytes)⟩ ∧
    (¬ b.Unreadable e.maxBodyBytes → b.octets e.maxBodyBytes = b.chunks.flatten) ∧
    (b.Unreadable e.maxBodyBytes → e.respond h b = e.respond h {} ∧
      (e.transform = .base64 → (e.respond h b).body = (h.write #[]).toList) ∧
      ∀ delay, e.transform = .json delay → (e.respond h b).body =
        (h.write #[]).toList ++ Utf8.encode ['n', 'u', 'l', 'l']) ∧
    ∀ (r : Request) (start : Nat) (times : List Nat), r.headers = h → r.body = b →
      r.route = .echo →
        (∀ reply time, ((Exchange.begin e r start).advanceAll e times).phase = .done reply time →
          reply = (e.respond h b).toReply r.method) ∧
        ((∀ now ∈ times, start + e.transform.delayMs ≤ now) →
          b.chunks.length + 2 ≤ times.length →
            ∃ time, ((Exchange.begin e r start).advanceAll e times).phase =
              .done ((e.respond h b).toReply r.method) time) := by
  refine ⟨respond_eq e h b, Body.octets_of_not_unreadable, fun hb => ⟨respond_of_unreadable h hb, ?_⟩, ?_⟩
  · rw [respond_eq, Body.octets_of_unreadable hb]
    constructor
    · intro hbase64
      rw [hbase64]
      exact List.append_nil _
    · intro delay hjson
      rw [hjson, Transform.apply, normalize_nil]
  · intro r start times hheaders hbody hroute
    subst hheaders hbody
    exact ⟨fun reply time hdone => Exchange.reply_of_done hroute hdone,
      fun hdelay hsteps => Exchange.done_of_advanceAll hroute hdelay hsteps⟩

end HttpEcho.Http
