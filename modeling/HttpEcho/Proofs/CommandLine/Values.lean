import HttpEcho.CommandLine.Reading
import HttpEcho.Proofs.Number.Unsigned
import HttpEcho.Proofs.Steps
import HttpEcho.Proofs.Text.WellFormed

/-! What the values of options set.

`Says` is the meaning of a value, without any reader. An option that is read sets what its value
says and nothing else (`Given.put_eq_ok_iff`). So what comes of options that are read one after
another does not depend on their order (`Given.setAll_eq_ok_iff`): each is there once, and what is
set is what the values say. -/
namespace HttpEcho.CommandLine

open Argument (ofText)

/-! ### Texts -/

theorem Argument.text?_eq_some_iff {a : Argument} {s : String} :
    a.text? = some s ↔ a = ofText s := by
  rw [text?, Option.map_eq_some_iff]
  constructor
  · rintro ⟨text, htext, rfl⟩
    rw [Utf8.decode?_eq_some_iff.mp htext, ofText, String.toList_ofList]
  · rintro rfl
    exact ⟨s.toList, Utf8.decode?_encode _, String.ofList_toList⟩

@[simp] theorem Argument.text?_ofText (s : String) : (ofText s).text? = some s :=
  Argument.text?_eq_some_iff.mpr rfl

theorem Argument.ofText_injective {s t : String} (h : ofText s = ofText t) : s = t := by
  rw [← Option.some_inj, ← text?_ofText s, h, text?_ofText]

theorem textValue_eq_ok_iff {a : Argument} {s : String} : textValue a = .ok s ↔ a = ofText s := by
  rw [← Argument.text?_eq_some_iff, textValue]
  cases a.text? <;> simp

theorem textValue_eq_error {a : Argument} {e : UsageError} (h : textValue a = .error e) :
    e = .notText ∧ ∀ s, a ≠ ofText s := by
  refine ⟨?_, fun s hs => ?_⟩
  · unfold textValue at h
    split at h <;> cases h
    rfl
  · rw [textValue_eq_ok_iff.mpr hs] at h
    cases h

theorem Mode.ofName?_eq_some_iff {text : String} {m : Mode} :
    Mode.ofName? text = some m ↔ text = m.name := by
  constructor
  · intro h
    have hname := List.find?_some h
    exact (of_decide_eq_true hname).symm
  · rintro rfl
    cases m <;> decide

/-! ### Settings -/

/-- What an option sets. -/
inductive Setting where
  | mode (m : Mode)
  | delayMs (n : Nat)
  | config (path : Argument)
  | logLevel (level : String)
  deriving DecidableEq

/-- A value says what its option sets. -/
inductive Says : Flag → Argument → Setting → Prop
  | mode (m) : Says .mode (ofText m.name) (.mode m)
  | delayMs {text n} : Unsigned.Denotes text.toList n → n ≤ maxDelay →
      Says .delayMs (ofText text) (.delayMs n)
  | config {path} : path ≠ [] → Says .config path (.config path)
  | logLevel (level) : Says .logLevel (ofText level) (.logLevel level)

/-- The option that sets it. -/
def Setting.flag : Setting → Flag
  | .mode _ => .mode
  | .delayMs _ => .delayMs
  | .config _ => .config
  | .logLevel _ => .logLevel

theorem Says.flag {f : Flag} {v : Argument} {s : Setting} (h : Says f v s) : s.flag = f := by
  cases h <;> rfl

namespace Given
variable {g g' : Given} {f : Flag} {s : Setting} {value : Argument} {e : UsageError}

/-- What an option was set to. -/
def get (g : Given) : Flag → Option Setting
  | .mode => g.mode.map .mode
  | .delayMs => g.delayMs.map .delayMs
  | .config => g.config.map .config
  | .logLevel => g.logLevel.map .logLevel

/-- The values with one more. -/
def assign (g : Given) : Setting → Given
  | .mode m => { g with mode := some m }
  | .delayMs n => { g with delayMs := some n }
  | .config path => { g with config := some path }
  | .logLevel level => { g with logLevel := some level }

@[simp] theorem get_assign_self (g : Given) (s : Setting) : (g.assign s).get s.flag = some s := by
  cases s <;> rfl

theorem get_assign_of_ne (g : Given) (h : f ≠ s.flag) : (g.assign s).get f = g.get f := by
  cases s <;> cases f <;> first | rfl | exact absurd rfl h

@[simp] theorem address_assign (g : Given) (s : Setting) : (g.assign s).address = g.address := by
  cases s <;> rfl

theorem has_eq_isSome_get (g : Given) (f : Flag) : g.has f = (g.get f).isSome := by
  cases f <;> exact Option.isSome_map.symm

theorem ext_get (haddress : g.address = g'.address) (hget : ∀ f, g.get f = g'.get f) : g = g' := by
  have hinj {α : Type} {mk : α → Setting} (hmk : Function.Injective mk) {a b : Option α}
      (h : a.map mk = b.map mk) : a = b := Option.map_injective hmk h
  have hmode := hinj (fun _ _ => Setting.mode.inj) (hget .mode)
  have hdelay := hinj (fun _ _ => Setting.delayMs.inj) (hget .delayMs)
  have hconfig := hinj (fun _ _ => Setting.config.inj) (hget .config)
  have hlevel := hinj (fun _ _ => Setting.logLevel.inj) (hget .logLevel)
  cases g
  cases g'
  cases haddress
  cases hmode
  cases hdelay
  cases hconfig
  cases hlevel
  rfl

/-! ### One option -/

/-- **An option that is read sets what its value says**, and the rest stays. -/
theorem put_eq_ok_iff : g.put f value = .ok g' ↔ ∃ s, Says f value s ∧ g' = g.assign s := by
  constructor
  · intro h
    cases f with
    | mode =>
      simp only [put] at h
      split at h
      · cases h
      split at h
      · rename_i m hm
        obtain ⟨text, htext, hname⟩ := Option.bind_eq_some_iff.mp hm
        obtain rfl := Argument.text?_eq_some_iff.mp htext
        obtain rfl := Mode.ofName?_eq_some_iff.mp hname
        exact ⟨.mode m, .mode m, (Except.ok.inj h).symm⟩
      · cases h
    | delayMs =>
      simp only [put] at h
      obtain ⟨text, htext, hnumber⟩ := bind_eq_ok_iff.mp h
      obtain rfl := textValue_eq_ok_iff.mp htext
      split at hnumber
      · rename_i n hn
        obtain ⟨hdenotes, hmax⟩ := Unsigned.parse_eq_ok_iff.mp hn
        exact ⟨.delayMs n, .delayMs hdenotes hmax, (Except.ok.inj hnumber).symm⟩
      · cases hnumber
    | config =>
      simp only [put] at h
      split at h
      · cases h
      · rename_i hne
        exact ⟨.config value, .config hne, (Except.ok.inj h).symm⟩
    | logLevel =>
      simp only [put] at h
      obtain ⟨level, htext, hlevel⟩ := bind_eq_ok_iff.mp h
      obtain rfl := textValue_eq_ok_iff.mp htext
      exact ⟨.logLevel level, .logLevel level, (Except.ok.inj hlevel).symm⟩
  · rintro ⟨s, hs, rfl⟩
    cases hs with
    | mode m =>
      have hne : ofText m.name ≠ [] := by cases m <;> decide
      simp only [put, if_neg hne, Argument.text?_ofText, Option.bind_some,
        Mode.ofName?_eq_some_iff.mpr rfl]
      rfl
    | @delayMs text n hdenotes hmax =>
      have hn := Unsigned.parse_eq_ok_iff.mpr ⟨hdenotes, hmax⟩
      simp only [put, textValue_eq_ok_iff.mpr rfl, bind, Except.bind, hn]
      rfl
    | config hne => exact if_neg hne
    | logLevel level =>
      simp only [put, textValue_eq_ok_iff.mpr rfl]
      rfl

/-- A value that says nothing is an error, which is never a request for help. -/
theorem put_eq_error (h : g.put f value = .error e) :
    (∀ s, ¬ Says f value s) ∧ ∀ help, e ≠ .help help := by
  constructor
  · intro s hs
    rw [put_eq_ok_iff.mpr ⟨s, hs, rfl⟩] at h
    cases h
  · rintro help rfl
    cases f with
    | mode =>
      simp only [put] at h
      split at h
      · cases h
      · split at h <;> cases h
    | delayMs =>
      simp only [put] at h
      rcases bind_eq_error_iff.mp h with htext | ⟨text, -, hnumber⟩
      · cases (textValue_eq_error htext).1
      · split at hnumber <;> cases hnumber
    | config =>
      simp only [put] at h
      split at h <;> cases h
    | logLevel =>
      simp only [put] at h
      rcases bind_eq_error_iff.mp h with htext | ⟨level, -, hlevel⟩
      · cases (textValue_eq_error htext).1
      · cases hlevel

theorem set_eq_ok_iff :
    g.set f value = .ok g' ↔ g.get f = none ∧ ∃ s, Says f value s ∧ g' = g.assign s := by
  rw [set, has_eq_isSome_get, ← put_eq_ok_iff]
  cases hget : g.get f <;> simp

theorem set_eq_error (h : g.set f value = .error e) :
    (e = .repeated f ∧ g.get f ≠ none) ∨ ((∀ s, ¬ Says f value s) ∧ ∀ help, e ≠ .help help) := by
  unfold set at h
  rw [has_eq_isSome_get] at h
  cases hget : g.get f with
  | some s =>
    rw [hget] at h
    cases h
    exact .inl ⟨rfl, Option.some_ne_none s⟩
  | none =>
    rw [hget] at h
    exact .inr (put_eq_error h)

/-- Where the address is does not matter to an option. -/
theorem set_address (g : Given) (f : Flag) (value : Argument) (address : Option String) :
    { g with address }.set f value = (g.set f value).map fun g => { g with address } := by
  have hput : { g with address }.put f value = (g.put f value).map fun g => { g with address } := by
    cases f with
    | mode =>
      simp only [put]
      split
      · rfl
      · split <;> rfl
    | delayMs =>
      simp only [put]
      cases textValue value with
      | error e => rfl
      | ok text =>
        simp only [bind, Except.bind]
        split <;> rfl
    | config =>
      simp only [put]
      split <;> rfl
    | logLevel =>
      simp only [put]
      cases textValue value <;> rfl
  have hhas : { g with address }.has f = g.has f := by cases f <;> rfl
  rw [set, set, hhas, hput]
  cases g.has f <;> rfl

/-! ### Options one after another -/

/-- Reads options with their values. -/
def setAll (g : Given) (options : List (Flag × Argument)) : Except UsageError Given :=
  options.foldlM (fun g o => g.set o.1 o.2) g

variable {options : List (Flag × Argument)}

theorem setAll_cons (g : Given) (o : Flag × Argument) (options : List (Flag × Argument)) :
    g.setAll (o :: options) = g.set o.1 o.2 >>= fun g => g.setAll options := rfl

/-- What options set: each is there once, and says what is set. -/
structure Sets (g : Given) (options : List (Flag × Argument)) (g' : Given) : Prop where
  once : (options.map Prod.fst).Nodup
  unset : ∀ o ∈ options, g.get o.1 = none
  said : ∀ o ∈ options, ∃ s, Says o.1 o.2 s ∧ g'.get o.1 = some s
  others : ∀ f, f ∉ options.map Prod.fst → g'.get f = g.get f
  address : g'.address = g.address

theorem Sets.nil_iff : g.Sets [] g' ↔ g = g' := by
  constructor
  · intro h
    exact ext_get h.address.symm fun f => (h.others f List.not_mem_nil).symm
  · rintro rfl
    exact ⟨List.nodup_nil, nofun, nofun, fun f _ => rfl, rfl⟩

theorem Sets.cons {o : Flag × Argument} (hunset : g.get o.1 = none) (hs : Says o.1 o.2 s)
    (h : (g.assign s).Sets options g') : g.Sets (o :: options) g' := by
  have hne : ∀ o' ∈ options, o'.1 ≠ s.flag := by
    intro o' ho' he
    have hnone := h.unset o' ho'
    rw [he, get_assign_self] at hnone
    cases hnone
  have hnot : s.flag ∉ options.map Prod.fst := by
    intro hmem
    obtain ⟨o', ho', he⟩ := List.mem_map.mp hmem
    exact hne o' ho' he
  refine ⟨?_, ?_, ?_, ?_, ?_⟩
  · exact List.nodup_cons.mpr ⟨hs.flag ▸ hnot, h.once⟩
  · refine List.forall_mem_cons.mpr ⟨hunset, fun o' ho' => ?_⟩
    rw [← get_assign_of_ne g (hne o' ho')]
    exact h.unset o' ho'
  · refine List.forall_mem_cons.mpr ⟨⟨s, hs, ?_⟩, h.said⟩
    rw [← hs.flag, h.others _ hnot, get_assign_self]
  · intro f hf
    obtain ⟨hfo, hf⟩ := not_or.mp (mt List.mem_cons.mpr hf)
    rw [h.others f hf, get_assign_of_ne g (hs.flag ▸ hfo)]
  · rw [h.address, address_assign]

theorem Sets.tail {o : Flag × Argument} (hs : Says o.1 o.2 s) (hget : g'.get o.1 = some s)
    (h : g.Sets (o :: options) g') : (g.assign s).Sets options g' := by
  obtain ⟨hnot, honce⟩ := List.nodup_cons.mp h.once
  refine ⟨honce, ?_, ?_, ?_, ?_⟩
  · intro o' ho'
    have hne : o'.1 ≠ s.flag := fun he => hnot (hs.flag ▸ he ▸ List.mem_map_of_mem ho')
    rw [get_assign_of_ne g hne]
    exact h.unset o' (List.mem_cons_of_mem o ho')
  · exact fun o' ho' => h.said o' (List.mem_cons_of_mem o ho')
  · intro f hf
    by_cases hfo : f = s.flag
    · rw [hfo, get_assign_self, hs.flag, hget]
    · rw [get_assign_of_ne g hfo]
      refine h.others f fun hmem => ?_
      exact (List.mem_cons.mp hmem).elim (hs.flag ▸ hfo) hf
  · rw [h.address, address_assign]

/-- **Options are read in any order alike**: what is set is what they say. -/
theorem setAll_eq_ok_iff : g.setAll options = .ok g' ↔ g.Sets options g' := by
  induction options generalizing g with
  | nil =>
    rw [Sets.nil_iff]
    exact ⟨Except.ok.inj, congrArg Except.ok⟩
  | cons o options ih =>
    rw [setAll_cons]
    constructor
    · intro h
      obtain ⟨g₁, hset, h⟩ := bind_eq_ok_iff.mp h
      obtain ⟨hunset, s, hs, rfl⟩ := set_eq_ok_iff.mp hset
      exact (ih.mp h).cons hunset hs
    · intro h
      obtain ⟨s, hs, hget⟩ := h.said o List.mem_cons_self
      rw [set_eq_ok_iff.mpr ⟨h.unset o List.mem_cons_self, s, hs, rfl⟩]
      exact ih.mpr (h.tail hs hget)

/-- What is wrong with options: one is there twice, or one of the values says nothing. -/
theorem setAll_eq_error (h : g.setAll options = .error e) :
    (∃ f, e = .repeated f ∧ 2 ≤ (g.get f).toList.length + (options.map Prod.fst).count f) ∨
      ((∃ o ∈ options, ∀ s, ¬ Says o.1 o.2 s) ∧ ∀ help, e ≠ .help help) := by
  induction options generalizing g with
  | nil => cases h
  | cons o options ih =>
    rw [List.map_cons]
    rcases bind_eq_error_iff.mp (g.setAll_cons o options ▸ h) with hset | ⟨g₁, hset, h⟩
    · rcases set_eq_error hset with ⟨rfl, hget⟩ | ⟨hs, hhelp⟩
      · obtain ⟨s, hs⟩ := Option.ne_none_iff_exists'.mp hget
        refine .inl ⟨o.1, rfl, ?_⟩
        rw [hs, List.count_cons_self, Option.toList_some, List.length_singleton]
        omega
      · exact .inr ⟨⟨o, List.mem_cons_self, hs⟩, hhelp⟩
    · obtain ⟨hunset, s, hs, rfl⟩ := set_eq_ok_iff.mp hset
      rcases ih h with ⟨f, rfl, hcount⟩ | ⟨⟨o', ho', hs'⟩, hhelp⟩
      · refine .inl ⟨f, rfl, ?_⟩
        by_cases hf : f = s.flag
        · rw [hf, get_assign_self] at hcount
          rw [hf, hs.flag, hunset, List.count_cons_self, ← hs.flag]
          simpa [Nat.add_comm] using hcount
        · rw [get_assign_of_ne g hf] at hcount
          exact Nat.le_trans hcount (Nat.add_le_add_left List.count_le_count_cons _)
      · exact .inr ⟨⟨o', List.mem_cons_of_mem o ho', hs'⟩, hhelp⟩

theorem setAll_append (g : Given) (a b : List (Flag × Argument)) :
    g.setAll (a ++ b) = g.setAll a >>= fun g => g.setAll b :=
  List.foldlM_append

theorem setAll_address (g : Given) (options : List (Flag × Argument)) (address : Option String) :
    { g with address }.setAll options = (g.setAll options).map fun g => { g with address } := by
  induction options generalizing g with
  | nil => rfl
  | cons o options ih =>
    rw [setAll_cons, setAll_cons, set_address]
    cases g.set o.1 o.2 with
    | error e => rfl
    | ok g => exact ih g

end Given
end HttpEcho.CommandLine
