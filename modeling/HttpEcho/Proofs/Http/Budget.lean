import HttpEcho.Proofs.Http.Body

/-! Reading within a limit.

Chunks are taken off the limit one by one. What is left of it and what was read make up the limit at
every point of a reading (`Reaches.balance`), so no chunk is taken off that is larger than what is
left. How a reading ends is therefore a matter of totals, however the octets are cut into chunks:
`read_bounded` says when a body is read, and which of two causes is logged when it is not. -/
namespace HttpEcho.Http.Body

/-! ### The points of a reading -/

/-- The points that a reading comes to: what is left of the limit, the chunks that were read, the
last one first, and those to come. -/
inductive Reaches (limit : Nat) (b : Body) :
    Nat → List (List UInt8) → List (List UInt8) → Prop where
  | start : Reaches limit b limit [] b.chunks
  | take {left got c rest} : Reaches limit b left got (c :: rest) → c.length ≤ left →
      Reaches limit b (left - c.length) (c :: got) rest

section Points

variable {limit left : Nat} {b : Body} {got rest : List (List UInt8)}

theorem Reaches.read_eq (h : Reaches limit b left got rest) :
    b.read limit = gather b.failure left got rest := by
  induction h with
  | start => rfl
  | take _ hfits ih => rw [ih, gather, if_pos hfits]

theorem Reaches.chunks_eq (h : Reaches limit b left got rest) : b.chunks = got.reverse ++ rest := by
  induction h with
  | start => rfl
  | take _ _ ih => rw [ih, List.reverse_cons, List.append_assoc, List.singleton_append]

/-- What is left and what was read make up the limit. -/
theorem Reaches.balance (h : Reaches limit b left got rest) :
    left + got.flatten.length = limit := by
  induction h with
  | start => rfl
  | take _ hfits ih =>
    rw [List.flatten_cons, List.length_append]
    omega

end Points

/-! ### How it ends -/

/-- Some of the first chunks together are longer than the limit. -/
def Overruns (limit : Nat) (b : Body) : Prop :=
  ∃ n, limit < (b.chunks.take n).flatten.length

theorem gather_eq_tooLong_iff {failure : Option String} {left : Nat}
    {got chunks : List (List UInt8)} :
    gather failure left got chunks = .error .tooLong ↔ left < chunks.flatten.length := by
  induction chunks generalizing left got with
  | nil =>
    refine iff_of_false (fun h => ?_) (Nat.not_lt_zero _)
    cases failure <;> cases h
  | cons c chunks ih =>
    unfold gather
    rw [List.flatten_cons, List.length_append]
    by_cases hfits : c.length ≤ left
    · rw [if_pos hfits, ih]
      omega
    · rw [if_neg hfits]
      exact iff_of_true rfl (by omega)

/-- A body is too long when it overruns the limit before it ends or breaks off. -/
theorem read_eq_tooLong_iff {limit : Nat} {b : Body} :
    b.read limit = .error .tooLong ↔ b.Overruns limit :=
  gather_eq_tooLong_iff.trans exists_take_iff.symm

theorem failure_of_gather {failure : Option String} {left : Nat} {got chunks : List (List UInt8)}
    {text : String} (h : gather failure left got chunks = .error (.broken text)) :
    failure = some text := by
  induction chunks generalizing left got with
  | nil =>
    cases failure with
    | none => cases h
    | some t =>
      cases h
      rfl
  | cons c chunks ih =>
    unfold gather at h
    split at h
    · exact ih h
    · cases h

/-- The wording of the cause is the failure's own, unless the body overran the limit before. -/
theorem failure_of_read {limit : Nat} {b : Body} {e : ReadError} (h : b.read limit = .error e)
    (hfits : ¬ b.Overruns limit) : b.failure = some e.message := by
  cases e with
  | tooLong => exact absurd (read_eq_tooLong_iff.mp h) hfits
  | broken text => exact failure_of_gather h

theorem log_of_error {limit : Nat} {b : Body} {e : ReadError} (h : b.read limit = .error e) :
    b.log limit = [.bodyUnread e.message limit] := by
  unfold log
  rw [h]

theorem octets_of_ok {limit : Nat} {b : Body} {octets : List UInt8}
    (h : b.read limit = .ok octets) : b.octets limit = octets ∧ b.log limit = [] := by
  unfold Body.octets log
  rw [h]
  exact ⟨rfl, rfl⟩

/-- A body is kept as it is, and nothing logged, when it ends and fits the limit. -/
theorem kept_iff {limit : Nat} {b : Body} :
    b.octets limit = b.chunks.flatten ∧ b.log limit = [] ↔
      b.failure = none ∧ b.chunks.flatten.length ≤ limit := by
  constructor
  · rintro ⟨-, hlog⟩
    cases hread : b.read limit with
    | ok octets =>
      obtain ⟨hfailure, hfits, -⟩ := read_eq_ok_iff.mp hread
      exact ⟨hfailure, hfits⟩
    | error e =>
      rw [log_of_error hread] at hlog
      cases hlog
  · rintro ⟨hfailure, hfits⟩
    exact octets_of_ok (read_eq_ok_iff.mpr ⟨hfailure, hfits, rfl⟩)

theorem exists_error {limit : Nat} {b : Body}
    (h : ¬ (b.failure = none ∧ b.chunks.flatten.length ≤ limit)) :
    ∃ e, b.read limit = .error e := by
  cases hread : b.read limit with
  | ok octets =>
    obtain ⟨hfailure, hfits, -⟩ := read_eq_ok_iff.mp hread
    exact absurd ⟨hfailure, hfits⟩ h
  | error e => exact ⟨e, rfl⟩

/-- What is read of a body that does not break off is a matter of its octets. -/
theorem read_eq_of_flatten_eq {limit : Nat} {a b : Body} (ha : a.failure = none)
    (hb : b.failure = none) (h : a.chunks.flatten = b.chunks.flatten) :
    a.read limit = b.read limit := by
  by_cases hfits : b.chunks.flatten.length ≤ limit
  · rw [read_eq_ok_iff.mpr ⟨ha, h ▸ hfits, h.symm⟩, read_eq_ok_iff.mpr ⟨hb, hfits, rfl⟩]
  · have hlong := Nat.not_le.mp hfits
    rw [read_eq_tooLong_iff.mpr (exists_take_iff.mpr hlong),
      read_eq_tooLong_iff.mpr (exists_take_iff.mpr (h ▸ hlong))]

/-- **A body is read whole or not at all.** It is kept, and nothing logged, exactly when it ends and
fits the limit. Otherwise it is empty and one warning gives the limit and the cause: the limit when
the chunks overran it, and else the failure in its own words. So the octets of a body that ends
decide, up to the last one that fits, and at every point of the reading what is left of the limit
is what the integers say. -/
theorem read_bounded (limit : Nat) (b : Body) :
    (b.octets limit = b.chunks.flatten ∧ b.log limit = [] ↔
      b.failure = none ∧ b.chunks.flatten.length ≤ limit) ∧
    (¬ (b.failure = none ∧ b.chunks.flatten.length ≤ limit) →
      b.octets limit = [] ∧ ∃ cause : ReadError, b.read limit = .error cause ∧
        (cause = .tooLong ↔ ∃ n, limit < (b.chunks.take n).flatten.length) ∧
        ∃ text, b.log limit = [.bodyUnread text limit] ∧
          (cause = .tooLong → text = "length limit exceeded") ∧
          (cause ≠ .tooLong → b.failure = some text)) ∧
    (∀ text, (Log.Event.bodyUnread text limit).level = .warn ∧
      (Log.Event.bodyUnread text limit).fields = [("error", text), ("limit", toString limit)]) ∧
    (b.failure = none →
      (∀ a : Body, a.failure = none → a.chunks.flatten = b.chunks.flatten →
        a.octets limit = b.octets limit ∧ a.log limit = b.log limit) ∧
      (b.chunks.flatten.length = limit → b.octets limit = b.chunks.flatten) ∧
      (b.chunks.flatten.length = limit + 1 → b.octets limit = [])) ∧
    (∀ left got rest, Reaches limit b left got rest →
      b.read limit = gather b.failure left got rest ∧ b.chunks = got.reverse ++ rest ∧
      (left : Int) = limit - got.flatten.length) := by
  refine ⟨kept_iff, fun hlost => ?_, fun text => ⟨rfl, rfl⟩, fun hfailure => ⟨?_, ?_, ?_⟩, ?_⟩
  · obtain ⟨e, he⟩ := exists_error hlost
    have hcause : e = .tooLong ↔ b.Overruns limit := by
      rw [← read_eq_tooLong_iff, he, Except.error.injEq]
    refine ⟨octets_of_error he, e, he, hcause, e.message, log_of_error he, ?_, fun hne => ?_⟩
    · rintro rfl
      rfl
    · exact failure_of_read he (mt hcause.mpr hne)
  · intro a ha hsame
    have hread : a.read limit = b.read limit := read_eq_of_flatten_eq ha hfailure hsame
    unfold octets log
    rw [hread]
    exact ⟨rfl, rfl⟩
  · exact fun hlength => (kept_iff.mpr ⟨hfailure, Nat.le_of_eq hlength⟩).1
  · intro hlength
    exact octets_of_unreadable (unreadable_iff.mpr (.inr (by omega)))
  · intro left got rest h
    have hbalance := h.balance
    exact ⟨h.read_eq, h.chunks_eq, by omega⟩

/-- The limit is the cause when it is overrun before the body breaks off. -/
example : (Body.mk [[1], [], [2]] (some "broken pipe")).log 1 =
    [.bodyUnread "length limit exceeded" 1] := rfl

end HttpEcho.Http.Body
