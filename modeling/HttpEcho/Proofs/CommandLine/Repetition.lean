import HttpEcho.Proofs.CommandLine.Spelling

/-! Options that are given twice.

An option that is given twice is an error, whatever else is on the command line and wherever the two
are, as long as nothing before the second ends the options (`parse_repeated`). What has been begun
stays begun (`Reading.Begun`), and a second beginning dooms the reading (`Reading.Doomed`): the
error comes when it is looked at, at the latest behind the last argument. It is no request for help
unless an argument asks for help (`parse_ne_help`). -/
namespace HttpEcho.CommandLine

open Argument (dash equals ofText)

/-- The arguments that begin an option. -/
inductive Flag.Begins (f : Flag) : Argument → Prop
  | long : f.Begins f.long
  | long_equals (value) : f.Begins (f.long ++ equals :: value)
  | octet (rest) : f.Begins (dash :: f.octet :: rest)

/-- The argument that has a shape. -/
def Word.argument : Word → Argument
  | .separator => [dash, dash]
  | .named name none => dash :: dash :: name
  | .named name (some value) => dash :: dash :: (name ++ equals :: value)
  | .lettered first rest => dash :: first :: rest
  | .plain a => a

/-- An argument has one shape, and is told by it. -/
theorem Word.argument_ofArgument (a : Argument) : (Word.ofArgument a).argument = a := by
  unfold Word.ofArgument
  split
  · rename_i b c rest
    by_cases hb : b = dash
    · by_cases hc : c = dash
      · subst hb hc
        rw [if_neg (not_not.mpr rfl), if_neg (not_not.mpr rfl)]
        split
        · rfl
        · have hsplit := List.takeWhile_append_dropWhile (p := (· ≠ equals)) (l := rest)
          split
          · rfl
          · rename_i first value hdrop
            have hhead := List.head?_dropWhile_not (· ≠ equals) rest
            rw [hdrop] at hhead
            have hfirst : first = equals := by simpa using hhead
            rw [hdrop, hfirst] at hsplit
            rw [argument, hsplit]
      · rw [if_neg (not_not.mpr hb), if_pos hc, hb]
        rfl
    · rw [if_pos hb]
      rfl
  · rfl

namespace Reading

/-! ### What an argument can do -/

/-- What taking an argument can come to. -/
inductive Takes (r : Reading) (a : Argument) : Reading → Prop
  /-- Two dashes end the options. -/
  | separator : a = [dash, dash] → Takes r a { r with separated := true }
  /-- A value that was awaited. -/
  | value {f} (value) : r.pending = .awaiting f → Takes r a { r with pending := .value f value }
  /-- Something new is pending. -/
  | pending {r₁} (p) : r.settle = .ok r₁ → Takes r a { r₁ with pending := p }
  /-- An option with its value. -/
  | set {r₁ f value given} : r.settle = .ok r₁ → r₁.given.set f value = .ok given →
      Takes r a { r₁ with given }

variable {r r' : Reading} {a : Argument} {f : Flag} {e : UsageError}

theorem takes_of_takePlain {b : Argument} (h : r.takePlain b = .ok r') : r.Takes a r' := by
  unfold takePlain at h
  split at h
  · cases h
  · obtain ⟨r₁, hsettle, h⟩ := bind_eq_ok_iff.mp h
    cases h
    exact .pending _ hsettle

theorem takeFlag_inv {v : Option Argument} (h : r.takeFlag f v = .ok r') :
    ∃ r₁, r.settle = .ok r₁ ∧ (r' = { r₁ with pending := .awaiting f } ∨
      ∃ value given, r₁.given.set f value = .ok given ∧ r' = { r₁ with given }) := by
  obtain ⟨r₁, hsettle, h⟩ := bind_eq_ok_iff.mp h
  refine ⟨r₁, hsettle, ?_⟩
  cases v with
  | none =>
    cases h
    exact .inl rfl
  | some value =>
    obtain ⟨given, hset, h⟩ := bind_eq_ok_iff.mp h
    cases h
    exact .inr ⟨value, given, hset, rfl⟩

theorem takes_of_takeFlag {v : Option Argument} (h : r.takeFlag f v = .ok r') : r.Takes a r' := by
  obtain ⟨r₁, hsettle, rfl | ⟨value, given, hset, rfl⟩⟩ := takeFlag_inv h
  · exact .pending _ hsettle
  · exact .set hsettle hset

theorem takeHelp_ne_ok {help : Help} : r.takeHelp help ≠ .ok r' := by
  intro h
  obtain ⟨r₁, -, h⟩ := bind_eq_ok_iff.mp h
  cases h

theorem takes_of_take (h : r.take a = .ok r') : r.Takes a r' := by
  unfold take at h
  split at h
  · exact takes_of_takePlain h
  split at h
  · rename_i hword
    cases h
    have ha := Word.argument_ofArgument a
    rw [hword] at ha
    exact .separator ha.symm
  · unfold takeNamed at h
    split at h
    · exact takes_of_takeFlag h
    split at h
    · split at h
      · exact absurd h takeHelp_ne_ok
      · cases h
    · cases h
  · simp only [takeLettered] at h
    split at h
    · exact takes_of_takeFlag h
    split at h
    · exact absurd h takeHelp_ne_ok
    · cases h
  · split at h
    · rename_i hpending
      cases h
      exact .value _ hpending
    · exact takes_of_takePlain h

end Reading

/-! ### What has been begun -/

/-- The option whose value is to follow or not looked at yet. -/
def Pending.flag? : Pending → Option Flag
  | .awaiting f => some f
  | .value f _ => some f
  | _ => Option.none

namespace Reading
variable {r r' : Reading} {a : Argument} {f : Flag}

/-- An option was begun: its value is there, or not looked at yet. -/
def Begun (r : Reading) (f : Flag) : Prop :=
  r.given.get f ≠ none ∨ r.pending.flag? = some f

/-- An option was begun a second time, and this was not looked at yet. -/
def Doomed (r : Reading) (f : Flag) : Prop :=
  r.given.get f ≠ none ∧ r.pending.flag? = some f

theorem get_of_set {g g' : Given} {f' : Flag} {value : Argument} (h : g.set f' value = .ok g')
    (hf : g.get f ≠ none ∨ f' = f) : g'.get f ≠ none := by
  obtain ⟨-, s, hs, rfl⟩ := Given.set_eq_ok_iff.mp h
  by_cases hflag : f = s.flag
  · rw [hflag, Given.get_assign_self]
    exact Option.some_ne_none s
  · rw [Given.get_assign_of_ne g hflag]
    exact hf.resolve_right fun he => hflag (he ▸ hs.flag.symm)

/-- What was begun is given, once it was looked at. -/
theorem Begun.settle (hf : r.Begun f) (h : r.settle = .ok r') : r'.given.get f ≠ none := by
  obtain ⟨given, hsettles, rfl⟩ := settle_inv h
  cases hsettles with
  | none hpending =>
    rw [Begun, hpending] at hf
    exact hf.resolve_right nofun
  | value hpending hset =>
    rw [Begun, hpending] at hf
    exact get_of_set hset (hf.imp_right Option.some.inj)
  | address text hpending =>
    rw [Begun, hpending] at hf
    exact hf.resolve_right nofun

theorem Doomed.settle_ne_ok (hf : r.Doomed f) : r.settle ≠ .ok r' := by
  intro h
  obtain ⟨hget, hflag⟩ := hf
  obtain ⟨given, hsettles, -⟩ := settle_inv h
  cases hsettles with
  | none hpending =>
    rw [hpending] at hflag
    cases hflag
  | value hpending hset =>
    rw [hpending] at hflag
    cases hflag
    exact hget (Given.set_eq_ok_iff.mp hset).1
  | address text hpending =>
    rw [hpending] at hflag
    cases hflag

/-- What was begun stays begun, whatever comes. -/
theorem Begun.take (hf : r.Begun f) (h : r.take a = .ok r') : r'.Begun f := by
  cases takes_of_take h with
  | separator => exact hf
  | value value hpending =>
    rw [Begun, hpending] at hf
    exact hf
  | pending p hsettle =>
    have hget := hf.settle hsettle
    exact .inl hget
  | set hsettle hset =>
    have hget := hf.settle hsettle
    exact .inl (get_of_set hset (.inl hget))

/-- What is doomed stays doomed, whatever comes. -/
theorem Doomed.take (hf : r.Doomed f) (h : r.take a = .ok r') : r'.Doomed f := by
  cases takes_of_take h with
  | separator => exact hf
  | value value hpending =>
    rw [Doomed, hpending] at hf
    exact hf
  | pending p hsettle => exact absurd hsettle hf.settle_ne_ok
  | set hsettle hset => exact absurd hsettle hf.settle_ne_ok

theorem separated_of_take (h : r.take a = .ok r') (ha : a ≠ [dash, dash]) :
    r'.separated = r.separated := by
  cases takes_of_take h with
  | separator he => exact absurd he ha
  | value => rfl
  | pending p hsettle =>
    obtain ⟨given, -, rfl⟩ := settle_inv hsettle
    rfl
  | set hsettle hset =>
    obtain ⟨given, -, rfl⟩ := settle_inv hsettle
    rfl

/-! ### The two beginnings -/

theorem take_begins (hr : r.separated = false) (ha : f.Begins a) :
    ∃ value, r.take a = r.takeFlag f value := by
  cases ha with
  | long => exact ⟨none, take_long hr f⟩
  | long_equals value => exact ⟨some value, take_long_equals hr f value⟩
  | octet rest => exact ⟨attached rest, take_octet hr f rest⟩

theorem begun_of_begins (hr : r.separated = false) (ha : f.Begins a) (h : r.take a = .ok r') :
    r'.Begun f := by
  obtain ⟨v, hv⟩ := take_begins hr ha
  rw [hv] at h
  obtain ⟨r₁, -, rfl | ⟨value, given, hset, rfl⟩⟩ := takeFlag_inv h
  · exact .inr rfl
  · exact .inl (get_of_set hset (.inr rfl))

theorem doomed_of_begins (hf : r.Begun f) (hr : r.separated = false) (ha : f.Begins a)
    (h : r.take a = .ok r') : r'.Doomed f := by
  obtain ⟨v, hv⟩ := take_begins hr ha
  rw [hv] at h
  obtain ⟨r₁, hsettle, rfl | ⟨value, given, hset, rfl⟩⟩ := takeFlag_inv h
  · have hget := hf.settle hsettle
    exact ⟨hget, rfl⟩
  · exact absurd (Given.set_eq_ok_iff.mp hset).1 (hf.settle hsettle)

end Reading

theorem Flag.Begins.ne_separator {f : Flag} {a : Argument} (h : f.Begins a) : a ≠ [dash, dash] := by
  cases h with
  | long => cases f <;> decide
  | long_equals value => cases f <;> nofun
  | octet rest => cases f <;> nofun

open Reading in
/-- **An option that is given twice is an error**, in any spellings and with anything around it. -/
theorem parse_repeated {f : Flag} {a b : Argument} {before between after : List Argument}
    (ha : f.Begins a) (hb : f.Begins b) (hbefore : [dash, dash] ∉ before)
    (hbetween : [dash, dash] ∉ between) :
    ∃ e, parse (before ++ a :: (between ++ b :: after)) = .error e := by
  cases hparse : parse (before ++ a :: (between ++ b :: after)) with
  | error e => exact ⟨e, rfl⟩
  | ok i =>
    obtain ⟨r, hread, hend⟩ := bind_eq_ok_iff.mp hparse
    obtain ⟨r', hsettle, -⟩ := bind_eq_ok_iff.mp hend
    rw [List.foldlM_append] at hread
    obtain ⟨r₁, hread₁, hread⟩ := bind_eq_ok_iff.mp hread
    obtain ⟨r₂, htake, hread⟩ := bind_eq_ok_iff.mp hread
    rw [List.foldlM_append] at hread
    obtain ⟨r₃, hread₃, hread⟩ := bind_eq_ok_iff.mp hread
    obtain ⟨r₄, htake', hread⟩ := bind_eq_ok_iff.mp hread
    have hkeeps {arguments : List Argument} (h : [dash, dash] ∉ arguments) (r a r')
        (hmem : a ∈ arguments) (hr : r.separated = false) (htake : Reading.take r a = .ok r') :
        r'.separated = false :=
      (separated_of_take htake (ne_of_mem_of_not_mem hmem h)).trans hr
    have hseparated₁ : r₁.separated = false :=
      foldlM_keeps_ok (·.separated = false) (hkeeps hbefore) rfl hread₁
    have hseparated₂ : r₂.separated = false :=
      (separated_of_take htake ha.ne_separator).trans hseparated₁
    have hseparated₃ : r₃.separated = false :=
      foldlM_keeps_ok (·.separated = false) (hkeeps hbetween) hseparated₂ hread₃
    have hbegun₂ : r₂.Begun f := begun_of_begins hseparated₁ ha htake
    have hbegun₃ : r₃.Begun f :=
      foldlM_keeps_ok (·.Begun f) (fun _ _ _ _ => Begun.take) hbegun₂ hread₃
    have hdoomed₄ : r₄.Doomed f := doomed_of_begins hbegun₃ hseparated₃ hb htake'
    have hdoomed : r.Doomed f :=
      foldlM_keeps_ok (·.Doomed f) (fun _ _ _ _ => Doomed.take) hdoomed₄ hread
    exact absurd hsettle hdoomed.settle_ne_ok

/-! ### Help -/

/-- The arguments that ask for help. -/
inductive AsksHelp : Argument → Prop
  | long : AsksHelp (ofText "--help")
  | short (rest) : AsksHelp (dash :: 0x68 :: rest)

theorem Given.set_ne_help {g : Given} {f : Flag} {value : Argument} {help : Help} :
    g.set f value ≠ .error (.help help) := by
  intro h
  rcases Given.set_eq_error h with ⟨he, -⟩ | ⟨-, hne⟩
  · cases he
  · exact hne help rfl

namespace Reading
variable {r : Reading} {a : Argument} {f : Flag} {help : Help}

theorem settle_ne_help : r.settle ≠ .error (.help help) := by
  intro h
  obtain ⟨given, pending, separated⟩ := r
  cases pending with
  | none => cases h
  | awaiting f => cases h
  | value f value =>
    rcases bind_eq_error_iff.mp h with hset | ⟨g, -, h⟩
    · exact Given.set_ne_help hset
    · cases h
  | address value =>
    rcases bind_eq_error_iff.mp h with htext | ⟨text, -, h⟩
    · cases (textValue_eq_error htext).1
    · cases h

theorem takePlain_ne_help : r.takePlain a ≠ .error (.help help) := by
  intro h
  unfold takePlain at h
  split at h
  · cases h
  · rcases bind_eq_error_iff.mp h with hsettle | ⟨r₁, -, h⟩
    · exact settle_ne_help hsettle
    · cases h

theorem takeFlag_ne_help {v : Option Argument} : r.takeFlag f v ≠ .error (.help help) := by
  intro h
  rcases bind_eq_error_iff.mp h with hsettle | ⟨r₁, -, h⟩
  · exact settle_ne_help hsettle
  · cases v with
    | none => cases h
    | some value =>
      rcases bind_eq_error_iff.mp h with hset | ⟨given, -, h⟩
      · exact Given.set_ne_help hset
      · cases h

theorem octet_of_letter {b : UInt8} {c : Char} (h : Char.ofNat b.toNat = c) :
    b = UInt8.ofNat c.toNat := by
  have hvalid : b.toNat.isValidChar := .inl (Nat.lt_trans b.toNat_lt (by decide))
  rw [← h, Utf8.toNat_ofNat_of_valid hvalid, UInt8.ofNat_toNat]

theorem asksHelp_of_take (h : r.take a = .error (.help help)) : AsksHelp a := by
  have ha := Word.argument_ofArgument a
  unfold take at h
  split at h
  · exact absurd h takePlain_ne_help
  split at h
  · cases h
  · rename_i name value hword
    rw [hword] at ha
    unfold takeNamed at h
    split at h
    · exact absurd h takeFlag_ne_help
    split at h
    · rename_i hname
      split at h
      · rw [← ha, hname]
        exact .long
      · cases h
    · cases h
  · rename_i first rest hword
    rw [hword] at ha
    simp only [takeLettered] at h
    split at h
    · exact absurd h takeFlag_ne_help
    split at h
    · rename_i hletter
      rw [← ha, octet_of_letter hletter]
      exact .short rest
    · cases h
  · split at h
    · cases h
    · exact absurd h takePlain_ne_help

end Reading

/-- Nothing is a request for help but an argument that asks for it. -/
theorem parse_ne_help {arguments : List Argument} (hhelp : ∀ a ∈ arguments, ¬ AsksHelp a)
    (help : Help) : parse arguments ≠ .error (.help help) := by
  have hread (r : Reading) : arguments.foldlM Reading.take r ≠ .error (.help help) := by
    induction arguments generalizing r with
    | nil => nofun
    | cons a arguments ih =>
      intro h
      rw [List.foldlM_cons] at h
      rcases bind_eq_error_iff.mp h with htake | ⟨r₁, -, h⟩
      · exact hhelp a List.mem_cons_self (Reading.asksHelp_of_take htake)
      · exact ih (fun a ha => hhelp a (List.mem_cons_of_mem _ ha)) r₁ h
  intro h
  rcases bind_eq_error_iff.mp h with h | ⟨r, -, h⟩
  · exact hread {} h
  · rcases bind_eq_error_iff.mp h with hsettle | ⟨r', -, h⟩
    · exact Reading.settle_ne_help hsettle
    · unfold Given.complete at h
      split at h <;> cases h

end HttpEcho.CommandLine
