import Mathlib.Data.Nat.Notation

/-! Steps that may fail, one after another.

What each of them keeps they keep in a row (`foldlM_keeps`), whichever way they fail: `Gives` is
what a step with a result gives, and all that counts is that steps in a row give what the last of
them gives. -/
namespace HttpEcho
variable {α β σ ε : Type}

/-! ### Results -/

/-- What succeeds in two steps succeeds in each. -/
theorem bind_eq_ok_iff {x : Except ε α} {f : α → Except ε β} {b : β} :
    x >>= f = .ok b ↔ ∃ a, x = .ok a ∧ f a = .ok b := by
  cases x with
  | error e => exact ⟨nofun, nofun⟩
  | ok a => exact ⟨fun h => ⟨a, rfl, h⟩, fun ⟨_, ha, h⟩ => Except.ok.inj ha ▸ h⟩

theorem bind_eq_error_iff {x : Except ε α} {f : α → Except ε β} {e : ε} :
    x >>= f = .error e ↔ x = .error e ∨ ∃ a, x = .ok a ∧ f a = .error e := by
  cases x with
  | error e' =>
    constructor
    · intro h
      cases h
      exact .inl rfl
    · rintro (h | ⟨a, ha, -⟩)
      · cases h
        rfl
      · cases ha
  | ok a =>
    constructor
    · intro h
      exact .inr ⟨a, rfl, h⟩
    · rintro (h | ⟨a', ha, h⟩)
      · cases h
      · cases ha
        exact h

/-! ### Invariants -/

section
variable {m : Type → Type} [Monad m] (Gives : m σ → σ → Prop) {P : σ → Prop}

theorem foldlM_keeps (hpure : ∀ {s t : σ}, Gives (pure s) t → s = t)
    (hbind : ∀ {x : m σ} {f : σ → m σ} {t : σ}, Gives (x >>= f) t → ∃ s, Gives x s ∧ Gives (f s) t)
    {step : σ → α → m σ} {as : List α}
    (hstep : ∀ s a t, a ∈ as → P s → Gives (step s a) t → P t) {s t : σ} (hs : P s)
    (h : Gives (as.foldlM step s) t) : P t := by
  induction as generalizing s with
  | nil => exact hpure h ▸ hs
  | cons a as ih =>
    rw [List.foldlM_cons] at h
    obtain ⟨next, hfirst, hrest⟩ := hbind h
    have htail : ∀ s b t, b ∈ as → P s → Gives (step s b) t → P t :=
      fun s b t hb => hstep s b t (List.mem_cons_of_mem a hb)
    exact ih htail (hstep s a next List.mem_cons_self hs hfirst) hrest

end

variable (P : σ → Prop) {as : List α} {s t : σ}

theorem foldlM_keeps_some {step : σ → α → Option σ}
    (hstep : ∀ s a t, a ∈ as → P s → step s a = some t → P t) (hs : P s)
    (h : as.foldlM step s = some t) : P t :=
  foldlM_keeps (fun x t => x = some t) Option.some.inj Option.bind_eq_some_iff.mp hstep hs h

theorem foldlM_keeps_ok {step : σ → α → Except ε σ}
    (hstep : ∀ s a t, a ∈ as → P s → step s a = .ok t → P t) (hs : P s)
    (h : as.foldlM step s = .ok t) : P t :=
  foldlM_keeps (fun x t => x = Except.ok t) Except.ok.inj bind_eq_ok_iff.mp hstep hs h

end HttpEcho
