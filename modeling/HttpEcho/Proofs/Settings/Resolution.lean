import HttpEcho.CommandLine.Invocation
import HttpEcho.Proofs.Http.Case
import HttpEcho.Proofs.Text.Blank

/-! The settings that the program runs with.

What the command line gives goes over what its file says, or over the defaults when it names no file,
and only the result is held against the rules. `settings_resolved` says what comes of it for every
command line and every file. A file that cannot be loaded is an error whatever else the command line
gives; settings that break rules are refused with those rules, all of them and no others; and a value
that the command line replaces makes no difference. A level is known in any case
(`lowercase_mem_logLevels_iff`). -/
namespace HttpEcho

open Http (AlikeButCase IsCapital alikeButCase_iff caseless caseless_eq_self isCapital_iff)

/-! ### Levels -/

/-- A text in small letters differs from it in nothing but ASCII case, and no capital is left. -/
theorem lowercase_eq_iff {s t : String} : Text.lowercase s = t ↔
    AlikeButCase s.toList t.toList ∧ ∀ c ∈ t.toList, ¬ IsCapital c := by
  have hlower : (Text.lowercase s).toList = caseless s.toList := String.toList_ofList
  rw [← String.toList_inj, hlower, alikeButCase_iff]
  constructor
  · intro h
    have hsmall : ∀ c ∈ t.toList, ¬ IsCapital c := by
      rw [← h]
      intro c hc
      obtain ⟨d, -, rfl⟩ := List.mem_map.mp hc
      rw [isCapital_iff]
      simp
    exact ⟨h.trans (caseless_eq_self hsmall).symm, hsmall⟩
  · rintro ⟨halike, hsmall⟩
    rw [halike, caseless_eq_self hsmall]

/-- A level is known in any case. -/
theorem lowercase_mem_logLevels_iff {level : String} :
    Text.lowercase level ∈ logLevels ↔
      ∃ known ∈ ["trace", "debug", "info", "warn", "error"],
        AlikeButCase level.toList known.toList := by
  have hsmall : ∀ known ∈ logLevels, ∀ c ∈ known.toList, ¬ IsCapital c := by
    simp [isCapital_iff, logLevels, Char.isUpper]
  constructor
  · intro h
    exact ⟨_, h, (lowercase_eq_iff.mp rfl).1⟩
  · rintro ⟨known, hknown, halike⟩
    rwa [lowercase_eq_iff.mpr ⟨halike, hsmall known hknown⟩]

/-! ### The rules -/

/-- The place of a rule among the rules. -/
def Violation.rank : Violation → Nat
  | .emptyBindAddress => 0
  | .zeroBodyLimit => 1
  | .delayTooLong _ => 2
  | .unknownLogLevel _ => 3

namespace Settings
variable {s : Settings}

/-- The rules that settings break, with the values that break them. -/
def Breaks (s : Settings) : Violation → Prop
  | .emptyBindAddress => ∀ c ∈ s.bindAddress.toList, Text.isBlank c = true
  | .zeroBodyLimit => s.maxBodyBytes = 0
  | .delayTooLong d => d = s.delayMs ∧ 60000 < d
  | .unknownLogLevel l =>
    l = s.logLevel ∧ Text.lowercase l ∉ ["trace", "debug", "info", "warn", "error"]

/-- Settings that keep every rule. -/
structure Sensible (s : Settings) : Prop where
  address : ∃ c ∈ s.bindAddress.toList, Text.isBlank c = false
  bodyLimit : 0 < s.maxBodyBytes
  delay : s.delayMs ≤ 60000
  logLevel : Text.lowercase s.logLevel ∈ ["trace", "debug", "info", "warn", "error"]

theorem sensible_iff : s.Sensible ↔ ∀ v, ¬ s.Breaks v := by
  constructor
  · intro h v hbreaks
    cases v with
    | emptyBindAddress =>
      obtain ⟨c, hc, hsolid⟩ := h.address
      rw [hbreaks c hc] at hsolid
      cases hsolid
    | zeroBodyLimit => exact absurd hbreaks (Nat.ne_of_gt h.bodyLimit)
    | delayTooLong d =>
      obtain ⟨rfl, hlong⟩ := hbreaks
      exact absurd h.delay (Nat.not_le_of_lt hlong)
    | unknownLogLevel l =>
      obtain ⟨rfl, hunknown⟩ := hbreaks
      exact hunknown h.logLevel
  · intro h
    refine ⟨?_, ?_, ?_, ?_⟩
    · simpa [Breaks] using h .emptyBindAddress
    · exact Nat.pos_of_ne_zero (h .zeroBodyLimit)
    · exact Nat.le_of_not_lt fun hlong => h (.delayTooLong s.delayMs) ⟨rfl, hlong⟩
    · exact Decidable.of_not_not fun hunknown => h (.unknownLogLevel s.logLevel) ⟨rfl, hunknown⟩

instance (s : Settings) : (v : Violation) → Decidable (s.Breaks v)
  | .emptyBindAddress => inferInstanceAs (Decidable (∀ c ∈ _, _))
  | .zeroBodyLimit => inferInstanceAs (Decidable (_ = 0))
  | .delayTooLong _ => inferInstanceAs (Decidable (_ ∧ _))
  | .unknownLogLevel _ => inferInstanceAs (Decidable (_ ∧ _))

/-- Every rule with the value that it is about. -/
def rules (s : Settings) : List Violation :=
  [.emptyBindAddress, .zeroBodyLimit, .delayTooLong s.delayMs, .unknownLogLevel s.logLevel]

theorem Breaks.mem_rules {v : Violation} (h : s.Breaks v) : v ∈ s.rules := by
  cases v with
  | emptyBindAddress => simp [rules]
  | zeroBodyLimit => simp [rules]
  | delayTooLong d => simp [rules, h.1]
  | unknownLogLevel l => simp [rules, h.1]

theorem ite_eq_filter {c : Prop} [Decidable c] {v : Violation} (h : c ↔ s.Breaks v) :
    (if c then [v] else []) = [v].filter (s.Breaks ·) := by
  by_cases hc : c
  · simp [hc, h.mp hc]
  · simp [hc, mt h.mpr hc]

/-- The violations are the rules that are broken, each in its place. -/
theorem violations_eq_filter (s : Settings) : s.violations = s.rules.filter (s.Breaks ·) := by
  have haddress := ite_eq_filter (s := s) (v := .emptyBindAddress) Text.isEmpty_trim_iff
  have hlimit := ite_eq_filter (s := s) (c := s.maxBodyBytes = 0) (v := .zeroBodyLimit) Iff.rfl
  have hdelay := ite_eq_filter (s := s) (c := maxDelayMs < s.delayMs)
    (v := .delayTooLong s.delayMs) (and_iff_right rfl).symm
  have hlevel := ite_eq_filter (s := s) (c := Text.lowercase s.logLevel ∉ logLevels)
    (v := .unknownLogLevel s.logLevel) (and_iff_right rfl).symm
  rw [ite_not] at hlevel
  unfold violations
  rw [haddress, hlimit, hdelay, hlevel, ← List.filter_append, ← List.filter_append,
    ← List.filter_append]
  rfl

theorem mem_violations_iff {v : Violation} : v ∈ s.violations ↔ s.Breaks v := by
  rw [violations_eq_filter, List.mem_filter, decide_eq_true_iff]
  exact and_iff_right_of_imp Breaks.mem_rules

/-- A rule is broken at most once, and the rules stand in their order. -/
theorem pairwise_violations (s : Settings) : s.violations.Pairwise (·.rank < ·.rank) := by
  have hrules : s.rules.Pairwise (·.rank < ·.rank) := by simp [rules, Violation.rank]
  rw [violations_eq_filter]
  exact hrules.sublist List.filter_sublist

example : violations ⟨" ", .json, 60001, 0, "loud"⟩ =
    [.emptyBindAddress, .zeroBodyLimit, .delayTooLong 60001, .unknownLogLevel "loud"] := by decide

theorem validate_eq_ok (h : s.Sensible) : s.validate = .ok s := by
  have hnone : s.violations = [] :=
    List.eq_nil_iff_forall_not_mem.mpr fun v hv => sensible_iff.mp h v (mem_violations_iff.mp hv)
  unfold validate
  rw [hnone]

theorem validate_eq_error (h : ¬ s.Sensible) : s.validate = .error s.violations := by
  unfold validate
  split
  · next hnone =>
    refine absurd (sensible_iff.mpr fun v hv => ?_) h
    rw [← mem_violations_iff, hnone] at hv
    cases hv
  · rfl

/-- Loading a file does not hold it against the rules. -/
theorem ofFile_ne_invalid (content : Except FileError (List UInt8)) (vs : List Violation) :
    ofFile content ≠ .error (.invalid vs) := by
  unfold ofFile
  cases content with
  | error e => nofun
  | ok octets =>
    show (fileText octets).mapError .file >>= ofText ≠ _
    cases fileText octets with
    | error e => nofun
    | ok text =>
      show ofText text ≠ _
      unfold ofText
      split
      · nofun
      · next root _ => cases ofTable root <;> nofun

end Settings

/-! ### The layers -/

namespace CommandLine

/-- What is given replaces what was before, and nothing else does. -/
def Replaces {α : Type} (given : Option α) (before after : α) : Prop :=
  (∀ x, given = some x → after = x) ∧ (given = none → after = before)

theorem replaces_getD {α : Type} (given : Option α) (before : α) :
    Replaces given before (given.getD before) := by
  cases given with
  | none => exact ⟨nofun, fun _ => rfl⟩
  | some x => exact ⟨fun _ h => Option.some.inj h, nofun⟩

namespace Invocation
variable {i : Invocation} {file : Except Settings.Error Settings}

/-- The settings that the command line goes over: those of its file, or the defaults. -/
def Starts (i : Invocation) (file : Except Settings.Error Settings) (base : Settings) : Prop :=
  (i.config = none ∧ base = {}) ∨ (i.config.isSome ∧ file = .ok base)

/-- Settings with what the command line gives put over others. -/
structure Merges (i : Invocation) (base merged : Settings) : Prop where
  address : merged.bindAddress = i.address
  mode : Replaces i.mode base.mode merged.mode
  delay : Replaces i.delayMs base.delayMs merged.delayMs
  bodyLimit : merged.maxBodyBytes = base.maxBodyBytes
  logLevel : Replaces i.logLevel base.logLevel merged.logLevel

/-- Settings that differ at most where the command line gives something else. -/
structure Hides (i : Invocation) (a b : Settings) : Prop where
  mode : i.mode = none → a.mode = b.mode
  delay : i.delayMs = none → a.delayMs = b.delayMs
  bodyLimit : a.maxBodyBytes = b.maxBodyBytes
  logLevel : i.logLevel = none → a.logLevel = b.logLevel

theorem merges_override (i : Invocation) (base : Settings) : i.Merges base (i.override base) where
  address := rfl
  mode := replaces_getD i.mode base.mode
  delay := replaces_getD i.delayMs base.delayMs
  bodyLimit := rfl
  logLevel := replaces_getD i.logLevel base.logLevel

theorem Replaces.unique {α : Type} {given : Option α} {a b x y : α} (h : given = none → a = b)
    (hx : Replaces given a x) (hy : Replaces given b y) : x = y := by
  cases hgiven : given with
  | none => rw [hx.2 hgiven, hy.2 hgiven, h hgiven]
  | some z => rw [hx.1 z hgiven, hy.1 z hgiven]

/-- What the command line hides of settings makes no difference to what it makes of them. -/
theorem Hides.override_eq {a b : Settings} (h : i.Hides a b) : i.override a = i.override b := by
  have ha := i.merges_override a
  have hb := i.merges_override b
  have hmode := Replaces.unique h.mode ha.mode hb.mode
  have hdelay := Replaces.unique h.delay ha.delay hb.delay
  have hlevel := Replaces.unique h.logLevel ha.logLevel hb.logLevel
  unfold override at *
  rw [Settings.mk.injEq]
  exact ⟨rfl, hmode, hdelay, h.bodyLimit, hlevel⟩

theorem settings_eq (i : Invocation) (file : Except Settings.Error Settings) : i.settings file =
    (if i.config.isSome then file else .ok {}).bind
      fun base => (i.override base).validate.mapError .invalid := by
  unfold settings
  cases i.config <;> rfl

theorem settings_of_starts {base : Settings} (h : i.Starts file base) :
    i.settings file = (i.override base).validate.mapError .invalid := by
  rw [settings_eq]
  rcases h with ⟨hconfig, rfl⟩ | ⟨hconfig, rfl⟩
  · simp only [hconfig, Option.isSome_none, Bool.false_eq_true, if_false, Except.bind]
  · simp only [hconfig, if_true, Except.bind]

theorem settings_of_error {e : Settings.Error} (h : i.config.isSome) (he : file = .error e) :
    i.settings file = .error e := by
  simp only [settings_eq, h, he, if_true, Except.bind]

/-- There are settings to go over, unless a file was named that could not be loaded. -/
theorem starts_or_error (i : Invocation) (file : Except Settings.Error Settings) :
    (∃ base, i.Starts file base) ∨ (i.config.isSome ∧ ∃ e, file = .error e) := by
  cases hconfig : i.config with
  | none => exact Or.inl ⟨{}, Or.inl ⟨hconfig, rfl⟩⟩
  | some path =>
    cases file with
    | ok base => exact Or.inl ⟨base, Or.inr ⟨by rw [hconfig]; rfl, rfl⟩⟩
    | error e => exact Or.inr ⟨rfl, e, rfl⟩

/-- **Which settings the program runs with.** A file that was named and could not be loaded is the
error, whatever else the command line gives. Otherwise what the command line gives replaces what the
file says, or the defaults, and nothing else is touched. The outcome is those settings when they keep
every rule; when they do not, it lists the rules they break, each once, in their order and with the
value that breaks it. Values that the command line replaces make no difference to the outcome. -/
theorem settings_resolved (i : Invocation) (content : Except FileError (List UInt8)) :
    let file := Settings.ofFile content
    (∀ e, i.settings file = .error e ∧ (∀ vs, e ≠ .invalid vs) ↔
      i.config.isSome ∧ file = .error e) ∧
    (∀ base, i.Starts file base → ∃ merged, i.Merges base merged ∧
      (∀ s, i.settings file = .ok s ↔ s = merged ∧ merged.Sensible) ∧
      (¬ merged.Sensible → ∃ vs, i.settings file = .error (.invalid vs) ∧
        (∀ v, v ∈ vs ↔ merged.Breaks v) ∧ vs.Pairwise (·.rank < ·.rank))) ∧
    (∀ base other, i.Hides base other → i.settings (.ok base) = i.settings (.ok other)) := by
  refine ⟨fun e => ⟨?_, ?_⟩, ?_, ?_⟩
  · rintro ⟨he, hloading⟩
    rcases i.starts_or_error (Settings.ofFile content) with ⟨base, hbase⟩ | ⟨hconfig, e', he'⟩
    · rw [settings_of_starts hbase] at he
      cases hvalid : (i.override base).validate with
      | ok s => rw [hvalid] at he; cases he
      | error vs =>
        rw [hvalid] at he
        exact absurd (Except.error.inj he).symm (hloading vs)
    · rw [settings_of_error hconfig he'] at he
      exact ⟨hconfig, he'.trans he⟩
  · rintro ⟨hconfig, he⟩
    refine ⟨settings_of_error hconfig he, ?_⟩
    rintro vs rfl
    exact Settings.ofFile_ne_invalid content vs he
  · intro base hbase
    refine ⟨i.override base, i.merges_override base, fun s => ?_, fun hbroken => ?_⟩
    · rw [settings_of_starts hbase]
      by_cases hsensible : (i.override base).Sensible
      · rw [Settings.validate_eq_ok hsensible]
        exact ⟨fun h => ⟨(Except.ok.inj h).symm, hsensible⟩, fun h => congrArg _ h.1.symm⟩
      · rw [Settings.validate_eq_error hsensible]
        exact ⟨nofun, fun h => absurd h.2 hsensible⟩
    · rw [settings_of_starts hbase, Settings.validate_eq_error hbroken]
      exact ⟨_, rfl, fun v => Settings.mem_violations_iff, Settings.pairwise_violations _⟩
  · intro base other hhides
    rw [settings_eq, settings_eq]
    split
    · simp only [Except.bind, hhides.override_eq]
    · rfl

end Invocation

end CommandLine

end HttpEcho
