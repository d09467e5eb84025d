import HttpEcho.Http.Body

/-! What is read of a body: all of it (`read_eq_ok_iff`), or nothing, and nothing is read of exactly
those that break off or are too long at some point (`octets_of_unreadable`). -/
namespace HttpEcho.Http.Body

theorem gather_eq_ok_iff {failure : Option String} {left : Nat} {got chunks : List (List UInt8)}
    {octets : List UInt8} : gather failure left got chunks = .ok octets ↔
      failure = none ∧ chunks.flatten.length ≤ left ∧
        octets = got.reverse.flatten ++ chunks.flatten := by
  induction chunks generalizing left got with
  | nil =>
    rw [List.flatten_nil, List.append_nil]
    cases failure with
    | none =>
      constructor
      · intro h
        cases h
        exact ⟨rfl, Nat.zero_le _, rfl⟩
      · intro hread
        obtain ⟨-, -, rfl⟩ := hread
        rfl
    | some text => exact iff_of_false (fun h => by cases h) fun h => by cases h.1
  | cons c chunks ih =>
    unfold gather
    rw [List.flatten_cons, List.length_append]
    by_cases hfits : c.length ≤ left
    · rw [if_pos hfits, ih, List.reverse_cons, List.flatten_append, List.append_assoc]
      refine and_congr_right fun _ => and_congr ?_ ?_
      · omega
      · rw [List.flatten_singleton]
    · rw [if_neg hfits]
      exact iff_of_false (fun h => by cases h) fun h => hfits (by omega)

/-- A body is read when it ends without a failure and fits the limit, and then all of it is. -/
theorem read_eq_ok_iff {limit : Nat} {b : Body} {octets : List UInt8} :
    b.read limit = .ok octets ↔
      b.failure = none ∧ b.chunks.flatten.length ≤ limit ∧ octets = b.chunks.flatten :=
  gather_eq_ok_iff

/-- A body that breaks off, or is longer than the limit after some of its chunks. -/
def Unreadable (limit : Nat) (b : Body) : Prop :=
  b.failure.isSome ∨ ∃ n, limit < (b.chunks.take n).flatten.length

theorem exists_take_iff {limit : Nat} {chunks : List (List UInt8)} :
    (∃ n, limit < (chunks.take n).flatten.length) ↔ limit < chunks.flatten.length := by
  constructor
  · rintro ⟨n, hn⟩
    have hsplit : chunks.flatten = (chunks.take n).flatten ++ (chunks.drop n).flatten := by
      rw [← List.flatten_append, List.take_append_drop]
    rw [hsplit, List.length_append]
    exact Nat.lt_add_right _ hn
  · exact fun h => ⟨chunks.length, by rwa [List.take_length]⟩

theorem unreadable_iff {limit : Nat} {b : Body} :
    b.Unreadable limit ↔ b.failure ≠ none ∨ limit < b.chunks.flatten.length := by
  unfold Unreadable
  rw [Option.isSome_iff_ne_none, exists_take_iff]

theorem octets_of_error {limit : Nat} {b : Body} {e : ReadError} (h : b.read limit = .error e) :
    b.octets limit = [] := by
  unfold octets
  rw [h]

theorem octets_of_unreadable {limit : Nat} {b : Body} (h : b.Unreadable limit) :
    b.octets limit = [] := by
  cases hread : b.read limit with
  | error e => exact octets_of_error hread
  | ok octets =>
    obtain ⟨hfailure, hlength, -⟩ := read_eq_ok_iff.mp hread
    rcases unreadable_iff.mp h with hbroken | hlong
    · exact absurd hfailure hbroken
    · exact absurd hlength (Nat.not_le.mpr hlong)

theorem octets_of_not_unreadable {limit : Nat} {b : Body} (h : ¬ b.Unreadable limit) :
    b.octets limit = b.chunks.flatten := by
  obtain ⟨hfailure, hlength⟩ := not_or.mp (mt unreadable_iff.mpr h)
  unfold octets
  rw [read_eq_ok_iff.mpr ⟨Classical.not_not.mp hfailure, Nat.not_lt.mp hlength, rfl⟩]

end HttpEcho.Http.Body
