import HttpEcho.Http.Service
import Mathlib.Data.Set.Card

/-! No stop signal is lost, and none is invented.

A receiver's part of a run begins where it subscribed. What it was told since then, the losses
included, and what it still has to receive add up to how often the signal was given since then
(`accounted_add_backlog`). It hears what the only receiver of a signal of its own would hear
(`heard_own`): other receivers make no difference to it, and neither does what was before. The main
result, `receivers_accounted`, says so for every run, and what follows for a service that waits for
its first receipt and does not look at it. -/
namespace HttpEcho

/-- How many signals a receipt says were lost. -/
def Receipt.lost : Receipt → Nat
  | .lagged n => n
  | _ => 0

/-- How many signals a receipt accounts for. -/
def Receipt.told : Receipt → Nat
  | .received => 1
  | r => r.lost

theorem Receipt.sum_told (rs : List Receipt) :
    (rs.map told).sum = rs.count .received + (rs.map lost).sum := by
  induction rs with
  | nil => rfl
  | cons r rs ih =>
    rw [List.map_cons, List.sum_cons, List.map_cons, List.sum_cons, List.count_cons, ih]
    cases r with
    | received => simp [told, lost]; omega
    | pending => simp [told, lost]
    | closed => simp [told, lost]
    | lagged n => simp [told, lost]; omega

namespace StopSignal
variable {s : StopSignal} {i j k : Nat}

/-! ### What is observed of a run -/

/-- The steps of a run, each with what came of it. -/
def history (s : StopSignal) (steps : List Step) : List (Step × Answer) :=
  steps.zip (s.run steps).2

/-- The receipt that a receiver got in a step, if it did. -/
def receiptOf (i : Nat) : Step × Answer → Option Receipt
  | (.receive j, .receipt r) => if j = i then some r else none
  | _ => none

/-- What a receiver was told, in order. -/
def heard (i : Nat) (h : List (Step × Answer)) : List Receipt :=
  h.filterMap (receiptOf i)

/-- How often the signal was given. -/
def timesGiven (h : List (Step × Answer)) : Nat :=
  h.countP fun e => e.1 = .trigger ∧ e.2 ≠ .gone

/-- How many signals a receiver was told of. -/
def accounted (i : Nat) (h : List (Step × Answer)) : Nat :=
  ((heard i h).map Receipt.told).sum

theorem history_cons (s : StopSignal) (step : Step) (rest : List Step) :
    s.history (step :: rest) = (step, (s.step step).2) :: (s.step step).1.history rest :=
  rfl

theorem run_cons (s : StopSignal) (step : Step) (rest : List Step) :
    (s.run (step :: rest)).1 = ((s.step step).1.run rest).1 :=
  rfl

theorem run_append (s : StopSignal) (a b : List Step) :
    (s.run (a ++ b)).1 = ((s.run a).1.run b).1 := by
  induction a generalizing s with
  | nil => rfl
  | cons step a ih => exact ih (s.step step).1

theorem heard_cons (i : Nat) (e : Step × Answer) (h : List (Step × Answer)) :
    heard i (e :: h) = heard i [e] ++ heard i h := by
  rw [← List.singleton_append]
  exact List.filterMap_append

theorem heard_singleton (i : Nat) (e : Step × Answer) : heard i [e] = (receiptOf i e).toList := by
  unfold heard
  cases h : receiptOf i e <;> simp [h]

theorem accounted_cons (i : Nat) (e : Step × Answer) (h : List (Step × Answer)) :
    accounted i (e :: h) = accounted i [e] + accounted i h := by
  unfold accounted
  rw [heard_cons, List.map_append, List.sum_append]

theorem timesGiven_cons (e : Step × Answer) (h : List (Step × Answer)) :
    timesGiven (e :: h) = timesGiven [e] + timesGiven h := by
  unfold timesGiven
  rw [← List.singleton_append, List.countP_append]

/-! ### Steps -/

theorem seen?_eq_some_iff : s.seen? i = some k ↔ s.receivers[i]? = some (some k) := by
  unfold seen?
  rw [Option.join_eq_some_iff]

theorem lt_length_of_seen? (h : s.seen? i = some k) : i < s.receivers.length :=
  (List.getElem?_eq_some_iff.mp (seen?_eq_some_iff.mp h)).1

theorem seen?_set_self (h : i < s.receivers.length) (x : Option Nat) :
    ({ s with receivers := s.receivers.set i x } : StopSignal).seen? i = x := by
  unfold seen?
  simp only [List.getElem?_set_self h, Option.join_some]

theorem seen?_set_ne (h : j ≠ i) (x : Option Nat) :
    ({ s with receivers := s.receivers.set j x } : StopSignal).seen? i = s.seen? i := by
  unfold seen?
  simp only [List.getElem?_set_ne h]

theorem set_seen? (h : s.seen? i = some k) : s.receivers.set i (some k) = s.receivers := by
  obtain ⟨hlt, hget⟩ := List.getElem?_eq_some_iff.mp (seen?_eq_some_iff.mp h)
  rw [← hget, List.set_getElem_self]

theorem told_receipt_le (s : StopSignal) : (backlog : Nat) → (s.receipt backlog).told ≤ backlog
  | 0 => by
    show (if s.closed then Receipt.closed else .pending).told ≤ 0
    split <;> exact Nat.le_refl 0
  | 1 => Nat.le_refl 1
  | n + 2 => Nat.le_succ (n + 1)

theorem step_subscribe (s : StopSignal) : s.step .subscribe =
    if s.closed then (s, .gone)
    else ({ s with receivers := s.receivers ++ [some s.given] }, .subscribed s.receivers.length) :=
  rfl

theorem step_trigger (s : StopSignal) : s.step .trigger =
    if s.closed then (s, .gone) else ({ s with given := s.given + 1 }, .notified s.listening) :=
  rfl

theorem receive?_eq (s : StopSignal) (i : Nat) : s.receive? i = (s.seen? i).map fun seen =>
    ({ s with receivers := s.receivers.set i (some (seen + (s.receipt (s.given - seen)).told)) },
      s.receipt (s.given - seen)) := by
  unfold receive?
  cases h : s.seen? i with
  | none => rfl
  | some k =>
    have hsame := set_seen? h
    obtain ⟨given, closed, receivers⟩ := s
    simp only at hsame ⊢
    generalize hbacklog : given - k = backlog
    match backlog, hbacklog with
    | 0, hbacklog =>
      cases closed <;> simp [receipt, hbacklog, Receipt.told, Receipt.lost, hsame]
    | 1, hbacklog =>
      have hgiven : given = k + 1 := by omega
      simp [receipt, Receipt.told, hgiven]
    | n + 2, hbacklog => simp [receipt, hbacklog, Receipt.told, Receipt.lost]

/-- A receiver that looks has seen what it is told of, and nothing else changes. -/
theorem step_receive (h : s.seen? i = some k) :
    s.step (.receive i) =
      ({ s with receivers := s.receivers.set i (some (k + (s.receipt (s.given - k)).told)) },
        .receipt (s.receipt (s.given - k))) := by
  unfold StopSignal.step
  simp only [receive?_eq, h, Option.map_some]

theorem step_receive_gone (h : s.seen? i = none) : s.step (.receive i) = (s, .gone) := by
  unfold StopSignal.step
  simp only [receive?_eq, h, Option.map_none]

theorem given_step (s : StopSignal) (step : Step) :
    (s.step step).1.given = s.given + timesGiven [(step, (s.step step).2)] := by
  cases step with
  | subscribe =>
    rw [step_subscribe]
    split <;> rfl
  | trigger =>
    rw [step_trigger]
    split <;> rfl
  | receive i =>
    cases h : s.seen? i with
    | none => rw [step_receive_gone h]; rfl
    | some k => rw [step_receive h]; rfl
  | drop i => rfl
  | close => rfl

theorem closed_step (s : StopSignal) (step : Step) :
    (s.step step).1.closed = true ↔ s.closed = true ∨ step = .close := by
  cases step with
  | subscribe =>
    rw [step_subscribe]
    split <;> simp
  | trigger =>
    rw [step_trigger]
    split <;> simp
  | receive i =>
    cases h : s.seen? i with
    | none => simp [step_receive_gone h]
    | some k => simp [step_receive h]
  | drop i => simp [StopSignal.step, drop]
  | close => simp [StopSignal.step, close]

theorem receiptOf_other (h : j ≠ i) (a : Answer) : receiptOf i (.receive j, a) = none := by
  cases a <;> simp [receiptOf, h]

/-- Only a step of its own tells a receiver anything. -/
theorem accounted_step (h : s.seen? i = some k) (step : Step) :
    accounted i [(step, (s.step step).2)] =
      if step = .receive i then (s.receipt (s.given - k)).told else 0 := by
  cases step with
  | subscribe => rfl
  | trigger => rfl
  | receive j =>
    by_cases hj : j = i
    · subst hj
      simp [step_receive h, accounted, heard, receiptOf]
    · simp [accounted, heard, receiptOf_other hj, hj]
  | drop j => rfl
  | close => rfl

/-- A receiver has seen more after a step just by what it was told in it. -/
theorem seen?_step {step : Step} (h : s.seen? i = some k) (hkept : step ≠ .drop i) :
    (s.step step).1.seen? i = some (k + accounted i [(step, (s.step step).2)]) := by
  rw [accounted_step h]
  cases step with
  | subscribe =>
    rw [step_subscribe]
    split
    · exact h
    · show ((s.receivers ++ [some s.given])[i]?).join = some k
      rw [List.getElem?_append_left (lt_length_of_seen? h)]
      exact h
  | trigger =>
    rw [step_trigger]
    split <;> exact h
  | receive j =>
    by_cases hj : j = i
    · subst hj
      rw [step_receive h, seen?_set_self (lt_length_of_seen? h), if_pos rfl]
    · rw [if_neg fun he => hj (Step.receive.inj he)]
      cases hother : s.seen? j with
      | none => rw [step_receive_gone hother]; exact h
      | some l =>
        rw [step_receive hother, seen?_set_ne hj]
        exact h
  | drop j =>
    have hj : j ≠ i := fun he => hkept (he ▸ rfl)
    show (s.drop j).seen? i = some k
    rw [drop, seen?_set_ne hj]
    exact h
  | close => exact h

theorem accounted_step_le (h : s.seen? i = some k) (hle : k ≤ s.given) (step : Step) :
    k + accounted i [(step, (s.step step).2)] ≤ (s.step step).1.given := by
  rw [accounted_step h, given_step]
  have htold := told_receipt_le s (s.given - k)
  split <;> omega

/-! ### Runs -/

theorem given_run (s : StopSignal) (steps : List Step) :
    (s.run steps).1.given = s.given + timesGiven (s.history steps) := by
  induction steps generalizing s with
  | nil => rfl
  | cons step steps ih =>
    rw [run_cons, ih, given_step, history_cons, timesGiven_cons _ (history _ _), Nat.add_assoc]

theorem closed_run (s : StopSignal) (steps : List Step) :
    (s.run steps).1.closed = true ↔ s.closed = true ∨ .close ∈ steps := by
  induction steps generalizing s with
  | nil => simp [run]
  | cons step steps ih =>
    rw [run_cons, ih, closed_step, List.mem_cons, or_assoc, @eq_comm _ step]

theorem seen?_run {steps : List Step} (h : s.seen? i = some k) (hkept : .drop i ∉ steps) :
    (s.run steps).1.seen? i = some (k + accounted i (s.history steps)) := by
  induction steps generalizing s k with
  | nil => exact h
  | cons step steps ih =>
    obtain ⟨hstep, hsteps⟩ := not_or.mp (mt List.mem_cons.mpr hkept)
    rw [run_cons, ih (seen?_step h (Ne.symm hstep)) hsteps, history_cons,
      accounted_cons _ _ (history _ _), Nat.add_assoc]

/-- A receiver is not told of more than was given. -/
theorem accounted_le {steps : List Step} (h : s.seen? i = some k) (hle : k ≤ s.given)
    (hkept : .drop i ∉ steps) : k + accounted i (s.history steps) ≤ (s.run steps).1.given := by
  induction steps generalizing s k with
  | nil => exact hle
  | cons step steps ih =>
    obtain ⟨hstep, hsteps⟩ := not_or.mp (mt List.mem_cons.mpr hkept)
    have hrest := ih (seen?_step h (Ne.symm hstep)) (accounted_step_le h hle step) hsteps
    rwa [Nat.add_assoc, ← accounted_cons] at hrest

/-! ### A receiver and its part of a run -/

/-- A receiver that subscribed after `before`, and was not dropped in what came after that. -/
structure Alive (before after : List Step) (i : Nat) : Prop where
  subscribed : ((run {} before).1.step .subscribe).2 = .subscribed i
  kept : .drop i ∉ after

/-- The signal when a receiver subscribed after `before`. -/
def joined (before : List Step) : StopSignal :=
  (run {} (before ++ [.subscribe])).1

theorem joined_eq {before : List Step}
    (h : ((run {} before).1.step .subscribe).2 = .subscribed i) :
    (run {} before).1.closed = false ∧ (run {} before).1.receivers.length = i ∧
      joined before = { (run {} before).1 with
        receivers := (run {} before).1.receivers ++ [some (run {} before).1.given] } := by
  rw [step_subscribe] at h
  unfold joined
  rw [run_append, run_cons, step_subscribe]
  by_cases hclosed : (run {} before).1.closed = true
  · simp [hclosed] at h
  · simp only [hclosed] at h ⊢
    simp at h
    simp [run, h]

theorem run_eq_joined (before after : List Step) :
    (run {} (before ++ .subscribe :: after)).1 = ((joined before).run after).1 := by
  unfold joined
  rw [List.append_cons, run_append]

theorem Alive.seen?_joined {before after : List Step} (h : Alive before after i) :
    (joined before).seen? i = some (joined before).given := by
  obtain ⟨-, hlength, hjoined⟩ := joined_eq h.subscribed
  rw [hjoined, seen?_eq_some_iff, ← hlength]
  simp

/-- What a receiver was told of, and what it still has to receive, was all given since it
subscribed, and nothing else was. -/
theorem Alive.accounted_add_backlog {before after : List Step} (h : Alive before after i) :
    ∃ backlog, (run {} (before ++ .subscribe :: after)).1.backlog? i = some backlog ∧
      timesGiven ((joined before).history after) =
        accounted i ((joined before).history after) + backlog := by
  have hseen := seen?_run h.seen?_joined h.kept
  have hgiven := given_run (joined before) after
  have hle : accounted i ((joined before).history after) ≤
      timesGiven ((joined before).history after) := by
    have htold := accounted_le h.seen?_joined (Nat.le_refl _) h.kept
    omega
  refine ⟨_, ?_, (Nat.add_sub_of_le hle).symm⟩
  unfold backlog?
  rw [run_eq_joined, hseen, Option.map_some, hgiven, Nat.add_sub_add_left]

/-! ### Other receivers make no difference -/

/-- What a step is for a receiver, as if it were the only one; `none` for a step of another. -/
def Step.own (i : Nat) : Step → Option Step
  | .subscribe => none
  | .trigger => some .trigger
  | .receive j => if j = i then some (.receive 0) else none
  | .drop j => if j = i then some (.drop 0) else none
  | .close => some .close

/-- A signal is for a receiver what another one is for its only receiver, which is `before` signals
behind. -/
structure Mirrors (before i : Nat) (s alone : StopSignal) : Prop where
  closed : s.closed = alone.closed
  given : s.given = before + alone.given
  seen : s.seen? i = (alone.seen? 0).map (before + ·)
  here : i < s.receivers.length
  hereAlone : 0 < alone.receivers.length

theorem Mirrors.set {before : Nat} {alone : StopSignal} (h : Mirrors before i s alone)
    (x : Option Nat) :
    Mirrors before i { s with receivers := s.receivers.set i (x.map (before + ·)) }
      { alone with receivers := alone.receivers.set 0 x } where
  closed := h.closed
  given := h.given
  seen := by rw [seen?_set_self h.here, seen?_set_self h.hereAlone]
  here := by simpa using h.here
  hereAlone := by simpa using h.hereAlone

theorem Mirrors.set_ne {before : Nat} {alone : StopSignal} (h : Mirrors before i s alone)
    (hj : j ≠ i) (x : Option Nat) :
    Mirrors before i { s with receivers := s.receivers.set j x } alone where
  closed := h.closed
  given := h.given
  seen := by rw [seen?_set_ne hj, h.seen]
  here := by simpa using h.here
  hereAlone := h.hereAlone

/-- What a step does for a receiver, the same step does for it alone, or nothing. -/
theorem Mirrors.step {before : Nat} {alone : StopSignal} (h : Mirrors before i s alone)
    (step : Step) :
    match step.own i with
    | some mine => Mirrors before i (s.step step).1 (alone.step mine).1 ∧
        receiptOf i (step, (s.step step).2) = receiptOf 0 (mine, (alone.step mine).2)
    | none => Mirrors before i (s.step step).1 alone ∧
        receiptOf i (step, (s.step step).2) = none := by
  cases step with
  | subscribe =>
    refine ⟨?_, rfl⟩
    rw [step_subscribe]
    split
    · exact h
    · refine ⟨h.closed, h.given, ?_, ?_, h.hereAlone⟩
      · rw [← h.seen]
        unfold seen?
        rw [List.getElem?_append_left h.here]
      · rw [List.length_append]
        exact Nat.lt_add_right _ h.here
  | trigger =>
    refine ⟨?_, rfl⟩
    rw [step_trigger, step_trigger, ← h.closed]
    split
    · exact h
    · exact ⟨rfl, congrArg (· + 1) h.given, h.seen, h.here, h.hereAlone⟩
  | receive j =>
    by_cases hj : j = i
    · subst hj
      simp only [Step.own, if_pos]
      cases hseen : alone.seen? 0 with
      | none =>
        have hgone : s.seen? j = none := by rw [h.seen, hseen, Option.map_none]
        rw [step_receive_gone hgone, step_receive_gone hseen]
        exact ⟨h, rfl⟩
      | some k =>
        have hhere : s.seen? j = some (before + k) := by rw [h.seen, hseen, Option.map_some]
        -- Both are as far behind, so they find the same.
        have hreceipt : s.receipt (s.given - (before + k)) = alone.receipt (alone.given - k) := by
          rw [h.given, Nat.add_sub_add_left]
          unfold receipt
          rw [h.closed]
        rw [step_receive hhere, step_receive hseen, hreceipt, Nat.add_assoc]
        exact ⟨h.set (some _), by simp [receiptOf]⟩
    · simp only [Step.own, if_neg hj]
      refine ⟨?_, receiptOf_other hj _⟩
      cases hseen : s.seen? j with
      | none => rw [step_receive_gone hseen]; exact h
      | some k => rw [step_receive hseen]; exact h.set_ne hj _
  | drop j =>
    by_cases hj : j = i
    · subst hj
      simp only [Step.own, if_pos]
      exact ⟨h.set none, rfl⟩
    · simp only [Step.own, if_neg hj]
      exact ⟨h.set_ne hj none, rfl⟩
  | close => exact ⟨⟨rfl, h.given, h.seen, h.here, h.hereAlone⟩, rfl⟩

theorem Mirrors.heard {before : Nat} {alone : StopSignal} (h : Mirrors before i s alone)
    (steps : List Step) :
    StopSignal.heard i (s.history steps) =
      StopSignal.heard 0 (alone.history (steps.filterMap (Step.own i))) := by
  induction steps generalizing s alone with
  | nil => rfl
  | cons step steps ih =>
    have hstep := h.step step
    rw [history_cons, heard_cons]
    cases hown : step.own i with
    | none =>
      simp only [hown] at hstep
      rw [List.filterMap_cons_none hown, ← ih hstep.1, heard_singleton, hstep.2]
      rfl
    | some mine =>
      simp only [hown] at hstep
      rw [List.filterMap_cons_some hown, history_cons, heard_cons 0, ← ih hstep.1,
        heard_singleton, heard_singleton, hstep.2]

/-- A receiver hears what it would hear as the only one of a signal of its own. -/
theorem Alive.heard_own {before after : List Step} (h : Alive before after i) :
    heard i ((joined before).history after) =
      heard 0 ((joined []).history (after.filterMap (Step.own i))) := by
  suffices hmirrors : Mirrors (joined before).given i (joined before) (joined []) from
    hmirrors.heard after
  obtain ⟨hclosed, hlength, hjoined⟩ := joined_eq h.subscribed
  refine ⟨?_, rfl, h.seen?_joined, ?_, Nat.zero_lt_one⟩
  · rw [hjoined]
    exact hclosed
  · rw [hjoined, ← hlength]
    simp

/-! ### Who is told -/

/-- A receiver that subscribed in a run, and was not dropped since. -/
def IsAlive (steps : List Step) (i : Nat) : Prop :=
  ∃ before after, steps = before ++ .subscribe :: after ∧ Alive before after i

theorem IsAlive.snoc {steps : List Step} {step : Step} (h : IsAlive steps i)
    (hkept : step ≠ .drop i) : IsAlive (steps ++ [step]) i := by
  obtain ⟨before, after, rfl, hsubscribed, hafter⟩ := h
  refine ⟨before, after ++ [step], by simp, hsubscribed, ?_⟩
  simpa using ⟨hafter, Ne.symm hkept⟩

theorem seen?_drop_self (s : StopSignal) (i : Nat) : (s.drop i).seen? i = none := by
  unfold drop
  by_cases h : i < s.receivers.length
  · exact seen?_set_self h none
  · unfold seen?
    rw [List.getElem?_eq_none (by simpa using h)]
    rfl

/-- A receiver that is there after a step has just subscribed, or was there before. -/
theorem isSome_of_seen?_step {step : Step} (h : ((s.step step).1.seen? i).isSome) :
    (step = .subscribe ∧ (s.step step).2 = .subscribed i) ∨
      ((s.seen? i).isSome ∧ step ≠ .drop i) := by
  cases step with
  | subscribe =>
    rw [step_subscribe] at h ⊢
    split at h
    · exact Or.inr ⟨h, by simp⟩
    · next hclosed =>
      rw [if_neg hclosed]
      rcases Nat.lt_trichotomy i s.receivers.length with hold | rfl | hnone
      · refine Or.inr ⟨?_, by simp⟩
        simpa [seen?, List.getElem?_append_left hold] using h
      · exact Or.inl ⟨rfl, rfl⟩
      · have hlength : (s.receivers ++ [some s.given]).length ≤ i := by simpa using hnone
        simp [seen?, List.getElem?_eq_none hlength] at h
  | trigger =>
    rw [step_trigger] at h
    split at h <;> exact Or.inr ⟨h, by simp⟩
  | receive j =>
    refine Or.inr ⟨?_, by simp⟩
    cases hseen : s.seen? j with
    | none => rwa [step_receive_gone hseen] at h
    | some k =>
      by_cases hj : j = i
      · rw [← hj, hseen]
        rfl
      · rwa [step_receive hseen, seen?_set_ne hj] at h
  | drop j =>
    by_cases hj : j = i
    · subst hj
      have hgone : (s.step (.drop j)).1.seen? j = none := seen?_drop_self s j
      rw [hgone] at h
      cases h
    · refine Or.inr ⟨?_, by simpa using hj⟩
      have hsame : (s.step (.drop j)).1.seen? i = s.seen? i := seen?_set_ne hj none
      rwa [hsame] at h
  | close => exact Or.inr ⟨h, by simp⟩

theorem isAlive_iff {steps : List Step} :
    IsAlive steps i ↔ ((run {} steps).1.seen? i).isSome := by
  constructor
  · intro h
    obtain ⟨before, after, rfl, halive⟩ := h
    rw [run_eq_joined, seen?_run halive.seen?_joined halive.kept]
    rfl
  · intro h
    induction steps using List.reverseRecOn with
    | nil => cases h
    | append_singleton steps step ih =>
      rw [run_append] at h
      rcases isSome_of_seen?_step h with ⟨rfl, hsubscribed⟩ | ⟨hseen, hkept⟩
      · exact ⟨steps, [], rfl, hsubscribed, by simp⟩
      · exact (ih hseen).snoc hkept

theorem length_filter_seen? (s : StopSignal) :
    ((List.range s.receivers.length).filter fun i => (s.seen? i).isSome).length = s.listening := by
  have hreceivers : s.receivers = (List.range s.receivers.length).map s.seen? := by
    refine List.ext_getElem (by simp) fun i h h' => ?_
    simp [seen?, List.getElem?_eq_getElem h]
  unfold listening
  conv_rhs => rw [hreceivers]
  rw [List.countP_map, List.countP_eq_length_filter]
  rfl

/-- The receivers that are there are counted. -/
theorem ncard_seen? (s : StopSignal) : {i | (s.seen? i).isSome}.ncard = s.listening := by
  have hmem : {i | (s.seen? i).isSome} =
      ((List.range s.receivers.length).filter fun i => (s.seen? i).isSome).toFinset := by
    ext i
    simp only [Set.mem_ofPred_eq, List.coe_toFinset, List.mem_filter, List.mem_range]
    refine ⟨fun h => ⟨?_, h⟩, And.right⟩
    obtain ⟨k, hk⟩ := Option.isSome_iff_exists.mp h
    exact lt_length_of_seen? hk
  rw [hmem, Set.ncard_coe_finset, List.toFinset_card_of_nodup, length_filter_seen?]
  exact List.nodup_range.filter _

theorem step_trigger_run {steps : List Step} (h : .close ∉ steps) :
    ((run {} steps).1.step .trigger).2 = .notified {i | IsAlive steps i}.ncard := by
  have hclosed : ¬ (run {} steps).1.closed = true := by
    rw [closed_run]
    simpa using h
  have halive : {i | IsAlive steps i} = {i | ((run {} steps).1.seen? i).isSome} :=
    Set.ext fun i => isAlive_iff
  rw [step_trigger, if_neg hclosed, halive, ncard_seen?]

/-! ### Waiting -/

/-- What a receiver finds next, by what it still has to receive. -/
theorem step_receive_backlog {backlog : Nat} (h : s.backlog? i = some backlog) :
    (backlog = 0 →
      s.step (.receive i) = (s, .receipt (if s.closed then .closed else .pending))) ∧
    (backlog = 1 →
      ∃ t, s.step (.receive i) = (t, .receipt .received) ∧ t.backlog? i = some 0) ∧
    (2 ≤ backlog →
      ∃ t, s.step (.receive i) = (t, .receipt (.lagged (backlog - 1))) ∧ t.backlog? i = some 1) := by
  obtain ⟨k, hseen, hbacklog⟩ := Option.map_eq_some_iff.mp h
  have hleft : ∀ told, ({ s with receivers := s.receivers.set i (some (k + told)) } :
      StopSignal).backlog? i = some (backlog - told) := by
    intro told
    unfold backlog?
    rw [seen?_set_self (lt_length_of_seen? hseen), Option.map_some, ← Nat.sub_sub, hbacklog]
  rw [step_receive hseen, hbacklog]
  refine ⟨?_, ?_, ?_⟩
  · rintro rfl
    have hnothing : (s.receipt 0).told = 0 := Nat.le_zero.mp (told_receipt_le s 0)
    rw [hnothing, Nat.add_zero, set_seen? hseen]
    rfl
  · rintro rfl
    exact ⟨_, rfl, hleft 1⟩
  · intro hlate
    obtain ⟨n, rfl⟩ := Nat.exists_eq_add_of_le' hlate
    exact ⟨_, rfl, (hleft (n + 1)).trans (congrArg some (by omega))⟩

/-- A receiver that waits has something to receive, or nothing to wait for. -/
def Ready (s : StopSignal) (i : Nat) : Prop :=
  ∃ r, (s.step (.receive i)).2 = .receipt r ∧ r ≠ .pending

theorem ready_iff {backlog : Nat} (h : s.backlog? i = some backlog) :
    s.Ready i ↔ backlog ≠ 0 ∨ s.closed = true := by
  obtain ⟨k, hseen, hbacklog⟩ := Option.map_eq_some_iff.mp h
  unfold Ready
  rw [step_receive hseen, hbacklog]
  match backlog with
  | 0 => cases hclosed : s.closed <;> simp [receipt, hclosed]
  | 1 => simp [receipt]
  | n + 2 => simp [receipt]

theorem heard_eq_nil {steps : List Step} (h : .receive i ∉ steps) :
    heard i (s.history steps) = [] := by
  induction steps generalizing s with
  | nil => rfl
  | cons step steps ih =>
    obtain ⟨hstep, hsteps⟩ := not_or.mp (mt List.mem_cons.mpr h)
    have hnone : receiptOf i (step, (s.step step).2) = none := by
      cases step with
      | receive j => exact receiptOf_other (fun he => hstep (congrArg Step.receive he.symm)) _
      | _ => rfl
    rw [history_cons, heard_cons, heard_singleton, hnone, ih hsteps]
    rfl

/-- A signal that was open was given or closed when a run has such a step. -/
theorem given_or_closed_iff (hopen : s.closed = false) {steps : List Step} :
    timesGiven (s.history steps) ≠ 0 ∨ (s.run steps).1.closed = true ↔
      .trigger ∈ steps ∨ .close ∈ steps := by
  have hclosed : (s.run steps).1.closed = true ↔ .close ∈ steps := by
    simp [closed_run, hopen]
  rw [hclosed]
  constructor
  · rintro (hgiven | hclose)
    · obtain ⟨e, he, htrigger⟩ := List.countP_pos_iff.mp (Nat.pos_of_ne_zero hgiven)
      have hstep : e.1 = .trigger := (of_decide_eq_true htrigger).1
      exact Or.inl (hstep ▸ (List.of_mem_zip he).1)
    · exact Or.inr hclose
  · rintro (htrigger | hclose)
    · -- If it was never closed, it was open when it was given, so that time counts.
      refine or_iff_not_imp_right.mpr fun hnever => ?_
      obtain ⟨a, b, rfl⟩ := List.append_of_mem htrigger
      have hstill : ¬ (s.run a).1.closed = true := by
        rw [closed_run]
        simp_all
      have hgiven := given_run s (a ++ .trigger :: b)
      rw [run_append, run_cons, given_run, step_trigger, if_neg hstill, given_run] at hgiven
      simp only at hgiven
      omega
    · exact Or.inr hclose

/-- A receiver that did not look yet is ready when the signal was given or closed since. -/
theorem Alive.ready_iff_of_unread {before after : List Step} (h : Alive before after i)
    (hunread : .receive i ∉ after) : (run {} (before ++ .subscribe :: after)).1.Ready i ↔
      .trigger ∈ after ∨ .close ∈ after := by
  obtain ⟨backlog, hbacklog, hgiven⟩ := h.accounted_add_backlog
  obtain ⟨hopen, -, hjoined⟩ := joined_eq h.subscribed
  have hnothing : accounted i ((joined before).history after) = 0 := by
    unfold accounted
    rw [heard_eq_nil hunread]
    rfl
  rw [hnothing, Nat.zero_add] at hgiven
  rw [ready_iff hbacklog, ← hgiven, run_eq_joined, given_or_closed_iff]
  rw [hjoined]
  exact hopen

end StopSignal

/-! ### The service -/

namespace Http.Service

theorem mustStop_iff (s : Service) : s.mustStop = true ↔ s.signal.Ready 0 := by
  unfold mustStop StopSignal.Ready StopSignal.step
  cases h : s.signal.receive? 0 with
  | none => simp [h]
  | some found =>
    obtain ⟨t, r⟩ := found
    cases r <;> simp [h]

/-- What an event does to the stop signal of a service that is serving after it. -/
def onSignal (signal : StopSignal) : Event → StopSignal
  | .trigger => signal.trigger.1
  | .release => signal.close
  | _ => signal

theorem step_of_serving {s : Service} {event : Event} (h : (s.step event).stage = .serving) :
    s.stage = .serving ∧ (s.step event).signal = onSignal s.signal event := by
  cases event with
  | connect =>
    by_cases hserving : s.stage = .serving
    · rw [show s.step .connect = _ from if_pos hserving]
      exact ⟨hserving, rfl⟩
    · rw [show s.step .connect = s from if_neg hserving] at h
      exact absurd h hserving
  | observe =>
    by_cases hstop : s.stage = .serving ∧ s.mustStop = true
    · rw [show s.step .observe = _ from if_pos hstop] at h
      cases h
    · rw [show s.step .observe = s from if_neg hstop] at h ⊢
      exact ⟨h, rfl⟩
  | finish =>
    by_cases hend : s.stage = .draining ∧ s.connections.all (·.closed) = true
    · rw [show s.step .finish = _ from if_pos hend] at h
      cases h
    · rw [show s.step .finish = s from if_neg hend] at h ⊢
      exact ⟨h, rfl⟩
  | _ => exact ⟨h, rfl⟩

/-- A service that still waits for its first receipt, after some events. -/
structure Waits (s : Service) (events : List Event) : Prop where
  unread : s.signal.seen? 0 = some 0
  given : s.signal.given ≠ 0 ↔ .trigger ∈ events
  closed : s.signal.closed = true ↔ .release ∈ events

theorem Waits.step {s : Service} {events : List Event} (h : s.Waits events) {event : Event}
    (hserving : (s.step event).stage = .serving) : (s.step event).Waits (events ++ [event]) := by
  obtain ⟨-, hsignal⟩ := step_of_serving hserving
  constructor
  · rw [hsignal]
    cases event <;> exact h.unread
  · rw [hsignal, List.mem_append, List.mem_singleton, ← h.given]
    cases event <;> simp [onSignal, StopSignal.trigger, StopSignal.close]
  · rw [hsignal, List.mem_append, List.mem_singleton, ← h.closed]
    cases event <;> simp [onSignal, StopSignal.trigger, StopSignal.close]

theorem waits_run (e : Echo) {events : List Event}
    (hserving : ((ofEcho e).run events).stage = .serving) :
    ((ofEcho e).run events).Waits events := by
  induction events using List.reverseRecOn with
  | nil => exact ⟨rfl, iff_of_false (· rfl) (List.not_mem_nil), iff_of_false nofun List.not_mem_nil⟩
  | append_singleton events event ih =>
    have hrun : (ofEcho e).run (events ++ [event]) = ((ofEcho e).run events).step event :=
      List.foldl_append
    rw [hrun] at hserving ⊢
    exact (ih (step_of_serving hserving).1).step hserving

/-- A service that is serving must stop when its signal was given or cannot be given any more. -/
theorem mustStop_run_iff (e : Echo) {events : List Event}
    (hserving : ((ofEcho e).run events).stage = .serving) :
    ((ofEcho e).run events).mustStop = true ↔ .trigger ∈ events ∨ .release ∈ events := by
  have hwaits := waits_run e hserving
  have hbacklog : ((ofEcho e).run events).signal.backlog? 0 =
      some ((ofEcho e).run events).signal.given := by
    unfold StopSignal.backlog?
    rw [hwaits.unread]
    rfl
  rw [mustStop_iff, StopSignal.ready_iff hbacklog, hwaits.given, hwaits.closed]

end Http.Service

namespace StopSignal

/-- **No stop signal is lost, and none is invented.** In every run, for every receiver that subscribed
and was not dropped since: the signals given since it subscribed are those it received, those it was
told were lost, and those it still has to receive. What it finds next goes by that backlog: nothing
yet, or the end when the signal was closed; one signal; or the loss of all but one, which it then
finds. What it hears is what it would hear as the only receiver of a signal of its own, so neither
other receivers nor what was before make a difference. A receiver that did not look yet is ready when
the signal was given or closed since it subscribed. Giving the signal says how many receivers there
are. A service that is serving must stop just when its signal was given or closed. -/
theorem receivers_accounted (steps : List Step) :
    (∀ before after i, steps = before ++ .subscribe :: after → Alive before after i →
      let s := (run {} steps).1
      let since := (joined before).history after
      (∃ backlog, s.backlog? i = some backlog ∧
        timesGiven since =
          (heard i since).count .received + ((heard i since).map Receipt.lost).sum + backlog ∧
        (backlog = 0 → s.step (.receive i) =
          (s, .receipt (if .close ∈ after then .closed else .pending))) ∧
        (backlog = 1 → ∃ t, s.step (.receive i) = (t, .receipt .received) ∧
          t.backlog? i = some 0) ∧
        (2 ≤ backlog → ∃ t, s.step (.receive i) = (t, .receipt (.lagged (backlog - 1))) ∧
          t.backlog? i = some 1)) ∧
      heard i since = heard 0 ((joined []).history (after.filterMap (Step.own i))) ∧
      (.receive i ∉ after → (s.Ready i ↔ .trigger ∈ after ∨ .close ∈ after))) ∧
    (.close ∉ steps →
      ((run {} steps).1.step .trigger).2 = .notified {i | IsAlive steps i}.ncard) ∧
    (∀ (e : Http.Echo) (events : List Http.Event),
      ((Http.Service.ofEcho e).run events).stage = .serving →
        (((Http.Service.ofEcho e).run events).mustStop = true ↔
          .trigger ∈ events ∨ .release ∈ events)) := by
  refine ⟨?_, step_trigger_run, fun e events => Http.Service.mustStop_run_iff e⟩
  intro before after i hsteps halive s since
  subst hsteps
  obtain ⟨hopen, -, hjoined⟩ := joined_eq halive.subscribed
  refine ⟨?_, halive.heard_own, halive.ready_iff_of_unread⟩
  obtain ⟨backlog, hbacklog, hgiven⟩ := halive.accounted_add_backlog
  refine ⟨backlog, hbacklog, ?_, ?_⟩
  · rw [← Receipt.sum_told]
    exact hgiven
  · have hclosed : (run {} (before ++ .subscribe :: after)).1.closed = true ↔ .close ∈ after := by
      rw [run_eq_joined, closed_run, hjoined]
      simp [hopen]
    have hnext := step_receive_backlog hbacklog
    simp only [hclosed] at hnext
    exact hnext

-- The first receiver is slow and loses one of two signals; the second was not there for the first.
example : (run {} [.subscribe, .trigger, .subscribe, .trigger, .receive 0, .receive 0, .close,
      .receive 0, .receive 1]).2 =
    [.subscribed 0, .notified 1, .subscribed 1, .notified 2, .receipt (.lagged 1),
      .receipt .received, .closed, .receipt .closed, .receipt .received] := by decide

end StopSignal

end HttpEcho
