import HttpEcho.Program
import HttpEcho.Proofs.CommandLine.Repetition
import Mathlib.Data.List.Nodup

/-! What a command line means, however it is arranged.

An `Arrangement` is an address among options, each in one of the five spellings. What it gives is
what the values say (`Invocation.Gives`), which knows no order and no spelling; an option that is
there twice makes it an error. `parse_arranged` says both. -/
namespace HttpEcho.CommandLine

open Argument (dash ofText)

/-- An address among options. -/
structure Arrangement where
  before : List Written
  after : List Written

namespace Arrangement

/-- The options with their values. -/
def options (a : Arrangement) : List (Flag × Argument) :=
  (a.before ++ a.after).map Written.option

/-- The arguments, with the address in its place. -/
def arguments (a : Arrangement) (address : Argument) : List Argument :=
  a.before.flatMap Written.arguments ++ address :: a.after.flatMap Written.arguments

end Arrangement

namespace Invocation

/-- What is given, as it was read. -/
def given (i : Invocation) : Given where
  address := some i.address
  mode := i.mode
  delayMs := i.delayMs
  config := i.config
  logLevel := i.logLevel

/-- What an address and options give: what each value says, and nothing else. -/
structure Gives (i : Invocation) (address : Argument) (options : List (Flag × Argument)) :
    Prop where
  address : ofText i.address = address
  said : ∀ o ∈ options, ∃ s, Says o.1 o.2 s ∧ i.given.get o.1 = some s
  others : ∀ f, f ∉ options.map Prod.fst → i.given.get f = none

end Invocation

variable {address : Argument} {options : List (Flag × Argument)} {text : String} {i : Invocation}

theorem Given.complete_eq_ok_iff {g : Given} : g.complete = .ok i ↔ g = i.given := by
  constructor
  · intro h
    obtain ⟨address, mode, delayMs, config, logLevel⟩ := g
    cases address <;> cases h
    rfl
  · rintro rfl
    rfl

theorem Given.get_address (address : Option String) (f : Flag) :
    Given.get { address } f = none := by
  cases f <;> rfl

theorem sets_given_iff :
    Given.Sets { address := some text } options i.given ↔
      (options.map Prod.fst).Nodup ∧ i.Gives (ofText text) options := by
  constructor
  · intro h
    have haddress : i.address = text := Option.some.inj h.address
    refine ⟨h.once, congrArg ofText haddress, h.said, fun f hf => ?_⟩
    rw [h.others f hf, Given.get_address]
  · rintro ⟨honce, h⟩
    refine ⟨honce, fun o _ => Given.get_address _ o.1, h.said, fun f hf => ?_, ?_⟩
    · rw [h.others f hf, Given.get_address]
    · exact congrArg some (Argument.ofText_injective h.address)

theorem Invocation.Gives.perm {options' : List (Flag × Argument)} (h : i.Gives address options)
    (hperm : options.Perm options') : i.Gives address options' where
  address := h.address
  said o ho := h.said o (hperm.mem_iff.mpr ho)
  others f hf := h.others f fun hmem => hf ((hperm.map Prod.fst).mem_iff.mp hmem)

/-! ### Arrangements -/

namespace Arrangement
variable (a : Arrangement)

/-- The address may as well come first, as far as it is a text. -/
theorem parse_text (haddress : (ofText text).head? ≠ some dash) :
    parse (a.arguments (ofText text)) =
      Given.setAll { address := some text } a.options >>= Given.complete := by
  have htext : textValue (ofText text) = .ok text := textValue_eq_ok_iff.mpr rfl
  have hfirst := Given.setAll_address {} (a.before.map Written.option) (some text)
  rw [arguments, parse_written haddress, options, List.map_append, Given.setAll_append, hfirst,
    htext]
  cases Given.setAll {} (a.before.map Written.option) <;> rfl

theorem parse_eq_ok_iff (haddress : address.head? ≠ some dash) :
    parse (a.arguments address) = .ok i ↔
      (a.options.map Prod.fst).Nodup ∧ i.Gives address a.options := by
  constructor
  · intro h
    obtain ⟨text, rfl⟩ : ∃ text, address = ofText text := by
      rw [arguments, parse_written haddress] at h
      obtain ⟨_, hread, -⟩ := bind_eq_ok_iff.mp h
      obtain ⟨_, hbefore, -⟩ := bind_eq_ok_iff.mp hread
      obtain ⟨_, -, hmap⟩ := bind_eq_ok_iff.mp hbefore
      cases htext : textValue address with
      | error e =>
        rw [htext] at hmap
        cases hmap
      | ok text => exact ⟨text, textValue_eq_ok_iff.mp htext⟩
    rw [parse_text a haddress] at h
    obtain ⟨g, hset, hcomplete⟩ := bind_eq_ok_iff.mp h
    obtain rfl := Given.complete_eq_ok_iff.mp hcomplete
    exact sets_given_iff.mp (Given.setAll_eq_ok_iff.mp hset)
  · rintro ⟨honce, h⟩
    obtain rfl := h.address
    rw [parse_text a haddress, Given.setAll_eq_ok_iff.mpr (sets_given_iff.mpr ⟨honce, h⟩)]
    exact Given.complete_eq_ok_iff.mpr rfl

/-- What is wrong with an arrangement: an option is there twice, or something says nothing. -/
theorem of_parse_eq_error {e : UsageError} (haddress : address.head? ≠ some dash)
    (h : parse (a.arguments address) = .error e) :
    (∃ f, e = .repeated f ∧ 2 ≤ (a.options.map Prod.fst).count f) ∨
      (((∀ text, address ≠ ofText text) ∨ ∃ o ∈ a.options, ∀ s, ¬ Says o.1 o.2 s) ∧
        ∀ help, e ≠ .help help) := by
  cases htext : textValue address with
  | error e' =>
    obtain ⟨rfl, hno⟩ := textValue_eq_error htext
    rw [arguments, parse_written haddress, htext] at h
    cases hset : Given.setAll {} (a.before.map Written.option) with
    | ok g =>
      rw [hset] at h
      cases h
      exact .inr ⟨.inl hno, nofun⟩
    | error e' =>
      rw [hset] at h
      cases h
      rcases Given.setAll_eq_error hset with ⟨f, rfl, hcount⟩ | ⟨-, hhelp⟩
      · refine .inl ⟨f, rfl, ?_⟩
        rw [Given.get_address, Option.toList_none, List.length_nil, Nat.zero_add] at hcount
        rw [options, List.map_append, List.map_append, List.count_append]
        exact Nat.le_add_right_of_le hcount
      · exact .inr ⟨.inl hno, hhelp⟩
  | ok text =>
    obtain rfl := textValue_eq_ok_iff.mp htext
    rw [parse_text a haddress] at h
    rcases bind_eq_error_iff.mp h with hset | ⟨g, hset, hcomplete⟩
    · rcases Given.setAll_eq_error hset with ⟨f, rfl, hcount⟩ | ⟨hsilent, hhelp⟩
      · rw [Given.get_address, Option.toList_none, List.length_nil, Nat.zero_add] at hcount
        exact .inl ⟨f, rfl, hcount⟩
      · exact .inr ⟨.inr hsilent, hhelp⟩
    · have haddress := (Given.setAll_eq_ok_iff.mp hset).address
      rw [Given.complete, haddress] at hcomplete
      cases hcomplete

/-- When the address is a text and every value says something, only a repetition is left. -/
theorem repeated_of_parse_eq_error {e : UsageError} (haddress : address.head? ≠ some dash)
    (htext : ∃ text, address = ofText text) (hsaid : ∀ o ∈ a.options, ∃ s, Says o.1 o.2 s)
    (h : parse (a.arguments address) = .error e) :
    ∃ f, e = .repeated f ∧ 2 ≤ (a.options.map Prod.fst).count f := by
  rcases a.of_parse_eq_error haddress h with hrepeated | ⟨hno | ⟨o, ho, hsilent⟩, -⟩
  · exact hrepeated
  · obtain ⟨text, htext⟩ := htext
    exact absurd htext (hno text)
  · obtain ⟨s, hs⟩ := hsaid o ho
    exact absurd hs (hsilent s)

/-- Options that say something, each of them once, give something. -/
theorem exists_parse_eq_ok (haddress : address.head? ≠ some dash)
    (honce : (a.options.map Prod.fst).Nodup) (htext : ∃ text, address = ofText text)
    (hsaid : ∀ o ∈ a.options, ∃ s, Says o.1 o.2 s) : ∃ i, parse (a.arguments address) = .ok i := by
  cases h : parse (a.arguments address) with
  | error e =>
    obtain ⟨f, -, hcount⟩ := a.repeated_of_parse_eq_error haddress htext hsaid h
    exact absurd (List.nodup_iff_count_le_one.mp honce f) (Nat.not_le_of_lt hcount)
  | ok i => exact ⟨i, rfl⟩

/-- An option that is there twice is an error, and no request for help. -/
theorem exists_parse_eq_error (haddress : address.head? ≠ some dash)
    (hrepeated : ¬ (a.options.map Prod.fst).Nodup) :
    ∃ e, parse (a.arguments address) = .error e ∧ ∀ help, e ≠ .help help := by
  cases h : parse (a.arguments address) with
  | ok i => exact absurd ((a.parse_eq_ok_iff haddress).mp h).1 hrepeated
  | error e =>
    refine ⟨e, rfl, ?_⟩
    rcases a.of_parse_eq_error haddress h with ⟨f, rfl, -⟩ | ⟨-, hhelp⟩
    · nofun
    · exact hhelp

end Arrangement

/-- **The order and the spelling of options do not matter, and none may be repeated.** An address
among options, arranged in any way, gives what the values say when each option is there once; so two
arrangements of the same options give the same, and lead to the same settings. An option that is
there twice is an error, whatever the values and the spellings are and whatever else is there. -/
theorem parse_arranged {address : Argument} (haddress : address.head? ≠ some dash) :
    (∀ (a : Arrangement) (i : Invocation), parse (a.arguments address) = .ok i ↔
      (a.options.map Prod.fst).Nodup ∧ i.Gives address a.options) ∧
    (∀ a b : Arrangement, a.options.Perm b.options → (a.options.map Prod.fst).Nodup →
      (∃ text, address = ofText text) → (∀ o ∈ a.options, ∃ s, Says o.1 o.2 s) →
      ∃ i, parse (a.arguments address) = .ok i ∧ parse (b.arguments address) = .ok i ∧
        ∀ {m : Type → Type} {σ : Type} [Monad m] (sys : System m σ),
          Program.settings sys (a.arguments address) =
            Program.settings sys (b.arguments address)) ∧
    (∀ a : Arrangement, ¬ (a.options.map Prod.fst).Nodup →
      ∃ e, parse (a.arguments address) = .error e ∧ (∀ help, e ≠ .help help) ∧
        ((∃ text, address = ofText text) → (∀ o ∈ a.options, ∃ s, Says o.1 o.2 s) →
          ∃ f, e = .repeated f ∧ 2 ≤ (a.options.map Prod.fst).count f)) ∧
    (∀ (f : Flag) (x y : Argument) (before between after : List Argument),
      f.Begins x → f.Begins y → [dash, dash] ∉ before → [dash, dash] ∉ between →
      ∃ e, parse (before ++ x :: (between ++ y :: after)) = .error e ∧
        ((∀ a ∈ before ++ x :: (between ++ y :: after), ¬ AsksHelp a) →
          ∀ help, e ≠ .help help)) := by
  refine ⟨fun a i => a.parse_eq_ok_iff haddress, ?_, ?_, ?_⟩
  · intro a b hperm honce htext hsaid
    obtain ⟨i, ha⟩ := a.exists_parse_eq_ok haddress honce htext hsaid
    obtain ⟨-, hgives⟩ := (a.parse_eq_ok_iff haddress).mp ha
    have honce' := (hperm.map Prod.fst).nodup_iff.mp honce
    have hb := (b.parse_eq_ok_iff haddress).mpr ⟨honce', hgives.perm hperm⟩
    exact ⟨i, ha, hb, fun sys => by simp only [Program.settings, ha, hb]⟩
  · intro a hrepeated
    obtain ⟨e, he, hhelp⟩ := a.exists_parse_eq_error haddress hrepeated
    exact ⟨e, he, hhelp, fun htext hsaid =>
      a.repeated_of_parse_eq_error haddress htext hsaid he⟩
  · intro f x y before between after hx hy hbefore hbetween
    obtain ⟨e, he⟩ : ∃ e, parse (before ++ x :: (between ++ y :: after)) = .error e :=
      parse_repeated hx hy hbefore hbetween
    refine ⟨e, he, fun hhelp help heq => ?_⟩
    rw [heq] at he
    exact parse_ne_help hhelp help he

theorem parse_arranged_lookalikes :
    (ofText ":80").head? ≠ some dash ∧
      ∃ i,
        parse (["-mjson", "--config", "base64", ":80", "--delay-ms=+7", "-l", "json"].map ofText) =
          .ok i ∧
        parse (["-d", "+7", "-l=json", ":80", "--mode=json", "-cbase64"].map ofText) = .ok i := by
  have haddress : (ofText ":80").head? ≠ some dash := by decide
  let json : (ofText "json").IsValue := ⟨by decide, by decide, by decide⟩
  let mode (s : Spelling) : Written := ⟨.mode, ofText "json", s, json⟩
  let delay (s : Spelling) : Written := ⟨.delayMs, ofText "+7", s, by decide, by decide, by decide⟩
  let config (s : Spelling) : Written :=
    ⟨.config, ofText "base64", s, by decide, by decide, by decide⟩
  let level (s : Spelling) : Written := ⟨.logLevel, ofText "json", s, json⟩
  let a : Arrangement := ⟨[mode .attached, config .named], [delay .namedEquals, level .lettered]⟩
  let b : Arrangement :=
    ⟨[delay .lettered, level .letteredEquals], [mode .namedEquals, config .attached]⟩
  have hperm : a.options.Perm b.options :=
    show (a.before.map Written.option ++ a.after.map Written.option).Perm
      (a.after.map Written.option ++ a.before.map Written.option) from List.perm_append_comm
  have honce : (a.options.map Prod.fst).Nodup := by decide
  have hseven : Unsigned.IsDecimal ['7'] 7 :=
    ⟨List.cons_ne_nil _ _, List.forall_mem_singleton.mpr rfl, by decide⟩
  have hsaid : ∀ o ∈ a.options, ∃ s, Says o.1 o.2 s := by
    refine List.forall_mem_cons.mpr ⟨⟨_, .mode .json⟩, ?_⟩
    refine List.forall_mem_cons.mpr ⟨⟨_, .config (by decide)⟩, ?_⟩
    refine List.forall_mem_cons.mpr ⟨⟨_, .delayMs (.plus hseven) (by decide)⟩, ?_⟩
    exact List.forall_mem_cons.mpr ⟨⟨_, .logLevel "json"⟩, nofun⟩
  obtain ⟨i, ha, hb, -⟩ :=
    (parse_arranged haddress).2.1 a b hperm honce ⟨":80", rfl⟩ hsaid
  have harguments : a.arguments (ofText ":80") =
      ["-mjson", "--config", "base64", ":80", "--delay-ms=+7", "-l", "json"].map ofText := by decide
  have harguments' : b.arguments (ofText ":80") =
      ["-d", "+7", "-l=json", ":80", "--mode=json", "-cbase64"].map ofText := by decide
  rw [harguments] at ha
  rw [harguments'] at hb
  exact ⟨haddress, i, ha, hb⟩

end HttpEcho.CommandLine
