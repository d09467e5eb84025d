import HttpEcho.Proofs.CommandLine.Values
import HttpEcho.Proofs.Text.Utf8
import HttpEcho.Proofs.Toml.Keys
import HttpEcho.Settings.Load
import Mathlib

/-! Loading settings from a document.

A document gives values under known keys, each in the table of its section, and may have anything
else besides. `Key.GivenIn` says what it gives, `Key.Legal` which values may be given, and
`Settings.value` what settings hold, all by key. Setting one key changes what is held under it and
nothing else, or fails whatever is held (`exists_set`, `set_eq_error`). A root table sets the keys it
gives one after another (`foldlM_setEntry`), each at most once (`Key.GivenIn.unique`), so
`ofFile_document` says what comes of a document whatever the order of its keys. -/
namespace HttpEcho
open Toml (Value)

/-! ### Keys -/

/-- What a document may set. -/
inductive Key where
  | bindAddress
  | mode
  | delayMs
  | maxBodyBytes
  | logLevel
  deriving DecidableEq

namespace Key

/-- The name of the table that the key stands in. -/
def table : Key → String
  | .bindAddress => "listener"
  | .mode | .delayMs | .maxBodyBytes => "echo"
  | .logLevel => "observability"

/-- The name of the key in its table. -/
def name : Key → String
  | .bindAddress => "bind_address"
  | .mode => "mode"
  | .delayMs => "delay_ms"
  | .maxBodyBytes => "max_body_bytes"
  | .logLevel => "log_level"

/-- The values that may be given under a key. -/
def Legal : Key → Value → Prop
  | .bindAddress, v | .logLevel, v => ∃ text, v = .string text
  | .mode, v => v = .string "json" ∨ v = .string "base64"
  | .delayMs, v | .maxBodyBytes, v => ∃ n : Nat, v = .integer n

/-- A root table gives a value under a key. -/
def GivenIn (k : Key) (root : List (String × Value)) (v : Value) : Prop :=
  ∃ entries, (k.table, .table entries) ∈ root ∧ (k.name, v) ∈ entries

/-- Entries of one key have one value. -/
theorem eq_of_mem_of_nodup {entries : List (String × Value)} {name : String} {v w : Value}
    (h : (entries.map Prod.fst).Nodup) (hv : (name, v) ∈ entries) (hw : (name, w) ∈ entries) :
    v = w :=
  congrArg Prod.snd (List.inj_on_of_nodup_map h hv hw rfl)

/-- A table with distinct keys gives at most one value under a key. -/
theorem GivenIn.unique {root : List (String × Value)} (h : (Value.table root).Distinct) {k : Key}
    {v w : Value} (hv : k.GivenIn root v) (hw : k.GivenIn root w) : v = w := by
  obtain ⟨entries, hsection, hentry⟩ := hv
  obtain ⟨others, hsection', hentry'⟩ := hw
  obtain ⟨hkeys, hinside⟩ := Value.distinct_table_iff.mp h
  cases eq_of_mem_of_nodup hkeys hsection hsection'
  exact eq_of_mem_of_nodup (Value.distinct_table_iff.mp (hinside _ hsection)).1 hentry hentry'

/-- The key of a name in a table of a name. -/
def find? (table name : String) : Option Key :=
  [bindAddress, mode, delayMs, maxBodyBytes, logLevel].find? fun k =>
    k.table = table ∧ k.name = name

theorem find?_eq_some_iff {table name : String} {k : Key} :
    find? table name = some k ↔ k.table = table ∧ k.name = name := by
  constructor
  · intro h
    have hfound := List.find?_some h
    exact of_decide_eq_true hfound
  · intro h
    obtain ⟨rfl, rfl⟩ := h
    cases k <;> decide

end Key

namespace Settings

/-- What settings hold under a key. -/
def value (s : Settings) : Key → Value
  | .bindAddress => .string s.bindAddress
  | .mode => .string s.mode.name
  | .delayMs => .integer s.delayMs
  | .maxBodyBytes => .integer s.maxBodyBytes
  | .logLevel => .string s.logLevel

/-- Settings are what they hold. -/
theorem ext_value {s t : Settings} (h : ∀ k, s.value k = t.value k) : s = t := by
  have hmode : s.mode = t.mode := by
    have hname := Value.string.inj (h .mode)
    have hs := CommandLine.Mode.ofName?_eq_some_iff.mpr (rfl : s.mode.name = _)
    rw [hname, CommandLine.Mode.ofName?_eq_some_iff.mpr rfl] at hs
    exact (Option.some.inj hs).symm
  have haddress := Value.string.inj (h .bindAddress)
  have hdelay := Int.ofNat.inj (Value.integer.inj (h .delayMs))
  have hlimit := Int.ofNat.inj (Value.integer.inj (h .maxBodyBytes))
  have hlevel := Value.string.inj (h .logLevel)
  cases s
  simp_all

/-! ### Setting one key -/

/-- The field of a section that a key is. -/
def fieldOf : Key → Field
  | .bindAddress => listenerSection.fields.get ⟨0, by decide⟩
  | .mode => echoSection.fields.get ⟨0, by decide⟩
  | .delayMs => echoSection.fields.get ⟨1, by decide⟩
  | .maxBodyBytes => echoSection.fields.get ⟨2, by decide⟩
  | .logLevel => observabilitySection.fields.get ⟨0, by decide⟩

/-- Sets one key. -/
def setKey (s : Settings) (entry : Key × Value) : Except Misfit Settings :=
  (fieldOf entry.1).set entry.2 s

/-- A legal value is held afterwards, and what is held under other keys stays. -/
theorem exists_set {k : Key} {v : Value} (h : k.Legal v) (s : Settings) :
    ∃ s', setKey s (k, v) = .ok s' ∧ s'.value = Function.update s.value k v := by
  cases k with
  | bindAddress =>
    obtain ⟨text, rfl⟩ := h
    exact ⟨{ s with bindAddress := text }, rfl, funext fun j => by cases j <;> rfl⟩
  | mode =>
    rcases h with rfl | rfl
    · exact ⟨{ s with mode := .json }, rfl, funext fun j => by cases j <;> rfl⟩
    · exact ⟨{ s with mode := .base64 }, rfl, funext fun j => by cases j <;> rfl⟩
  | delayMs =>
    obtain ⟨n, rfl⟩ := h
    exact ⟨{ s with delayMs := n }, rfl, funext fun j => by cases j <;> rfl⟩
  | maxBodyBytes =>
    obtain ⟨n, rfl⟩ := h
    exact ⟨{ s with maxBodyBytes := n }, rfl, funext fun j => by cases j <;> rfl⟩
  | logLevel =>
    obtain ⟨text, rfl⟩ := h
    exact ⟨{ s with logLevel := text }, rfl, funext fun j => by cases j <;> rfl⟩

theorem textOf_eq_error {v : Value} (h : ¬ ∃ text, v = .string text) :
    ∃ m, textOf v = .error m := by
  unfold textOf
  split
  · exact absurd ⟨_, rfl⟩ h
  · exact ⟨_, rfl⟩

theorem naturalOf_eq_error {expected : String} {v : Value} (h : ¬ ∃ n : Nat, v = .integer n) :
    ∃ m, naturalOf expected v = .error m := by
  unfold naturalOf
  split
  · exact absurd ⟨_, rfl⟩ h
  · exact ⟨_, rfl⟩
  · exact ⟨_, rfl⟩

theorem modeOf_eq_error {v : Value} (h : ¬ Key.Legal .mode v)
    (htable : ∀ entries, v ≠ .table entries) : ∃ m, modeOf v = .error m := by
  unfold modeOf
  split
  · next name =>
    unfold namedMode
    split
    · next mode hmode =>
      have hname := CommandLine.Mode.ofName?_eq_some_iff.mp hmode
      subst hname
      cases mode
      · exact absurd (Or.inl rfl) h
      · exact absurd (Or.inr rfl) h
    · exact ⟨_, rfl⟩
  · exact absurd rfl (htable _)
  · exact ⟨_, rfl⟩

theorem bind_of_error {α β : Type} {x : Except Misfit α} (h : ∃ m, x = .error m) :
    ∃ m, ∀ f : α → Except Misfit β, x >>= f = .error m := by
  obtain ⟨m, rfl⟩ := h
  exact ⟨m, fun f => rfl⟩

/-- Any other value is an error, whatever is held. -/
theorem set_eq_error {k : Key} {v : Value} (h : ¬ k.Legal v)
    (htable : k = .mode → ∀ entries, v ≠ .table entries) :
    ∃ m, ∀ s, setKey s (k, v) = .error m := by
  cases k with
  | bindAddress =>
    obtain ⟨m, hm⟩ := bind_of_error (textOf_eq_error h)
    exact ⟨m, fun s => hm _⟩
  | mode =>
    obtain ⟨m, hm⟩ := bind_of_error (modeOf_eq_error h (htable rfl))
    exact ⟨m, fun s => hm _⟩
  | delayMs =>
    obtain ⟨m, hm⟩ := bind_of_error (naturalOf_eq_error h)
    exact ⟨m, fun s => hm _⟩
  | maxBodyBytes =>
    obtain ⟨m, hm⟩ := bind_of_error (naturalOf_eq_error h)
    exact ⟨m, fun s => hm _⟩
  | logLevel =>
    obtain ⟨m, hm⟩ := bind_of_error (textOf_eq_error h)
    exact ⟨m, fun s => hm _⟩

/-! ### Setting the keys that are given -/

variable {root : List (String × Value)} {given : List (Key × Value)}

/-- What an entry of the root table gives, in order. -/
def givenIn (entry : String × Value) : List (Key × Value) :=
  match entry.2 with
  | .table entries =>
    entries.filterMap fun (name, v) => (Key.find? entry.1 name).map (·, v)
  | _ => []

theorem mem_givenIn_iff {k : Key} {v : Value} :
    (k, v) ∈ root.flatMap givenIn ↔ k.GivenIn root v := by
  rw [List.mem_flatMap]
  constructor
  · intro h
    obtain ⟨⟨table, w⟩, hroot, hgiven⟩ := h
    unfold givenIn at hgiven
    split at hgiven
    · next entries hw =>
      obtain ⟨⟨name, u⟩, hentry, hkey⟩ := List.mem_filterMap.mp hgiven
      obtain ⟨j, hj, heq⟩ := Option.map_eq_some_iff.mp hkey
      cases heq
      obtain ⟨rfl, rfl⟩ := Key.find?_eq_some_iff.mp hj
      exact ⟨entries, hw ▸ hroot, hentry⟩
    · cases hgiven
  · intro h
    obtain ⟨entries, hroot, hentry⟩ := h
    refine ⟨(k.table, .table entries), hroot, List.mem_filterMap.mpr ⟨(k.name, v), hentry, ?_⟩⟩
    show (Key.find? k.table k.name).map (·, v) = some (k, v)
    rw [Key.find?_eq_some_iff.mpr ⟨rfl, rfl⟩]
    rfl

theorem find?_fieldOf {sec : Section} (h : sec ∈ sections) {k : Key} (hk : k.table = sec.name) :
    sec.fields.find? (·.name = k.name) = some (fieldOf k) := by
  simp only [sections, List.mem_cons, List.not_mem_nil, or_false] at h
  rcases h with rfl | rfl | rfl <;> cases k <;>
    simp_all [Key.table, Key.name, fieldOf, listenerSection, echoSection, observabilitySection]

theorem exists_key_of_field {sec : Section} (h : sec ∈ sections) {field : Field}
    (hfield : field ∈ sec.fields) : ∃ k : Key, k.table = sec.name ∧ k.name = field.name := by
  have hall : ∀ sec ∈ sections, ∀ name ∈ sec.fields.map Field.name,
      (Key.find? sec.name name).isSome := by decide
  obtain ⟨k, hk⟩ := Option.isSome_iff_exists.mp
    (hall sec h field.name (List.mem_map_of_mem hfield))
  exact ⟨k, Key.find?_eq_some_iff.mp hk⟩

/-- The fields of a section are the keys of its table. -/
theorem find?_fields {sec : Section} (h : sec ∈ sections) (name : String) :
    sec.fields.find? (·.name = name) = (Key.find? sec.name name).map fieldOf := by
  cases hkey : Key.find? sec.name name with
  | some k =>
    obtain ⟨htable, rfl⟩ := Key.find?_eq_some_iff.mp hkey
    exact find?_fieldOf h htable
  | none =>
    refine List.find?_eq_none.mpr fun field hfield hname => ?_
    obtain ⟨k, hk⟩ := exists_key_of_field h hfield
    rw [Key.find?_eq_some_iff.mpr ⟨hk.1, hk.2.trans (of_decide_eq_true hname)⟩] at hkey
    cases hkey

theorem exists_key_of_section {sec : Section} (h : sec ∈ sections) :
    ∃ k : Key, k.table = sec.name := by
  have hall : ∀ sec ∈ sections, sec.fields ≠ [] := by
    simp [sections, listenerSection, echoSection, observabilitySection]
  obtain ⟨field, hfield⟩ := List.exists_mem_of_ne_nil _ (hall sec h)
  obtain ⟨k, hk, -⟩ := exists_key_of_field h hfield
  exact ⟨k, hk⟩

theorem exists_section_of_key (k : Key) : ∃ sec ∈ sections, sec.name = k.table := by
  cases k <;> simp [sections, listenerSection, echoSection, observabilitySection, Key.table]

/-- A section sets what its table gives. -/
theorem section_set_eq {sec : Section} (h : sec ∈ sections) (entries : List (String × Value))
    (s : Settings) :
    sec.set (.table entries) s = (givenIn (sec.name, .table entries)).foldlM setKey s := by
  have hfields : (entries.filterMap fun entry =>
      (sec.fields.find? (·.name = entry.1)).map (·, entry.2)) =
        (givenIn (sec.name, .table entries)).map fun given => (fieldOf given.1, given.2) := by
    simp only [givenIn, List.map_filterMap, Option.map_map, find?_fields h]
    rfl
  show (entries.filterMap fun entry =>
    (sec.fields.find? (·.name = entry.1)).map (·, entry.2)).foldlM
      (fun s set => set.1.set set.2 s) s = _
  rw [hfields, List.foldlM_map]
  rfl

/-- So does an entry of the root table, if that is a table wherever it is a section. -/
theorem setEntry_eq {entry : String × Value}
    (h : ∀ k : Key, k.table = entry.1 → ∃ entries, entry.2 = .table entries) (s : Settings) :
    setEntry s entry = (givenIn entry).foldlM setKey s := by
  obtain ⟨name, v⟩ := entry
  unfold setEntry
  split
  · next sec hsec =>
    have hmem := List.mem_of_find?_eq_some hsec
    have hname : sec.name = name := by simpa using List.find?_some hsec
    subst hname
    obtain ⟨k, hk⟩ := exists_key_of_section hmem
    obtain ⟨entries, rfl⟩ := h k hk
    exact section_set_eq hmem entries s
  · next hsec =>
    have hnone : givenIn (name, v) = [] := by
      unfold givenIn
      split
      · refine List.filterMap_eq_nil_iff.mpr fun e _ => Option.map_eq_none_iff.mpr ?_
        refine Option.eq_none_iff_forall_ne_some.mpr fun k hk => ?_
        obtain ⟨sec, hmem, hname⟩ := exists_section_of_key k
        have heq := hname.trans (Key.find?_eq_some_iff.mp hk).1
        exact absurd (decide_eq_true heq) (List.find?_eq_none.mp hsec sec hmem)
      · rfl
    rw [hnone]
    rfl

/-- A root table whose sections are tables. A mode that is a table is left out of account. -/
structure Plain (root : List (String × Value)) : Prop where
  sections : ∀ (k : Key) v, (k.table, v) ∈ root → ∃ entries, v = .table entries
  mode : ∀ entries, ¬ Key.mode.GivenIn root (.table entries)

theorem foldlM_setEntry (h : ∀ (k : Key) v, (k.table, v) ∈ root → ∃ entries, v = .table entries)
    (s : Settings) : root.foldlM setEntry s = (root.flatMap givenIn).foldlM setKey s := by
  induction root generalizing s with
  | nil => rfl
  | cons entry rest ih =>
    have htable : ∀ k : Key, k.table = entry.1 → ∃ entries, entry.2 = .table entries :=
      fun k hk => h k entry.2 (hk ▸ List.mem_cons_self)
    have hrest := ih fun k v hv => h k v (List.mem_cons_of_mem _ hv)
    rw [List.foldlM_cons, List.flatMap_cons, List.foldlM_append, setEntry_eq htable]
    exact congrArg _ (funext hrest)

/-- Legal values are all held afterwards, and what is held under keys that are not given stays. -/
theorem exists_foldlM_setKey
    (hunique : ∀ k v w, (k, v) ∈ given → (k, w) ∈ given → v = w)
    (hlegal : ∀ k v, (k, v) ∈ given → k.Legal v) (s : Settings) :
    ∃ s', given.foldlM setKey s = .ok s' ∧ ∀ k, (∀ v, (k, v) ∈ given → s'.value k = v) ∧
      ((∀ v, (k, v) ∉ given) → s'.value k = s.value k) := by
  induction given generalizing s with
  | nil => exact ⟨s, rfl, fun k => ⟨nofun, fun _ => rfl⟩⟩
  | cons entry rest ih =>
    obtain ⟨k₀, v₀⟩ := entry
    obtain ⟨s₁, hset, hvalue⟩ := exists_set (hlegal k₀ v₀ List.mem_cons_self) s
    obtain ⟨s', hrest, hheld⟩ :=
      ih (fun k v w hv hw => hunique k v w (List.mem_cons_of_mem _ hv) (List.mem_cons_of_mem _ hw))
        (fun k v hv => hlegal k v (List.mem_cons_of_mem _ hv)) s₁
    have hfold : ((k₀, v₀) :: rest).foldlM setKey s = .ok s' := by
      rw [List.foldlM_cons, hset]
      exact hrest
    refine ⟨s', hfold, ?_⟩
    intro k
    have hlast : (∀ w, (k, w) ∉ rest) → s'.value k = Function.update s.value k₀ v₀ k := fun hnone =>
      ((hheld k).2 hnone).trans (congrFun hvalue k)
    constructor
    · intro v hv
      -- a later entry of the key has the same value
      by_cases hlater : ∃ w, (k, w) ∈ rest
      · obtain ⟨w, hw⟩ := hlater
        rw [hunique k v w hv (List.mem_cons_of_mem _ hw)]
        exact (hheld k).1 w hw
      · have hnone := not_exists.mp hlater
        rcases List.mem_cons.mp hv with heq | hv
        · cases heq
          rw [hlast hnone, Function.update_self]
        · exact absurd hv (hnone v)
    · intro hnone
      have hne : k ≠ k₀ := fun heq => hnone v₀ (heq ▸ List.mem_cons_self)
      rw [hlast fun w hw => hnone w (List.mem_cons_of_mem _ hw), Function.update_of_ne hne]

/-- One illegal value is enough for an error. -/
theorem foldlM_setKey_eq_error (htable : ∀ entries, (.mode, .table entries) ∉ given) {k : Key}
    {v : Value} (hgiven : (k, v) ∈ given) (h : ¬ k.Legal v) (s : Settings) :
    ∃ m, given.foldlM setKey s = .error m := by
  induction given generalizing s with
  | nil => cases hgiven
  | cons entry rest ih =>
    obtain ⟨k₀, v₀⟩ := entry
    by_cases hlegal : k₀.Legal v₀
    · obtain ⟨s₁, hset, -⟩ := exists_set hlegal s
      have hrest : (k, v) ∈ rest := by
        rcases List.mem_cons.mp hgiven with heq | hrest
        · cases heq
          exact absurd hlegal h
        · exact hrest
      obtain ⟨m, hm⟩ :=
        ih (fun entries hmem => htable entries (List.mem_cons_of_mem _ hmem)) hrest s₁
      refine ⟨m, ?_⟩
      rw [List.foldlM_cons, hset]
      exact hm
    · obtain ⟨m, hm⟩ := set_eq_error (k := k₀) (v := v₀) hlegal fun hmode entries hv =>
        htable entries (hmode ▸ hv ▸ List.mem_cons_self)
      refine ⟨m, ?_⟩
      rw [List.foldlM_cons, hm]
      rfl

/-! ### Documents -/

/-- A file that holds a document with a root table. -/
def IsDocument (content : Except FileError (List UInt8)) (root : List (String × Value)) : Prop :=
  ∃ octets text, content = .ok octets ∧ fileText octets = .ok text ∧ Toml.ofText? text = some root

/-- Settings that hold what is given, and the default under keys that are not given. -/
def FilledFrom (root : List (String × Value)) (s : Settings) : Prop :=
  ∀ k : Key, (∀ v, k.GivenIn root v → s.value k = v) ∧
    ((∀ v, ¬ k.GivenIn root v) → s.value k = ({} : Settings).value k)

/-- At most one settings are filled from a root table. -/
theorem FilledFrom.unique {s t : Settings} (hs : FilledFrom root s) (ht : FilledFrom root t) :
    t = s := by
  apply ext_value
  intro k
  by_cases hgiven : ∃ v, k.GivenIn root v
  · obtain ⟨v, hv⟩ := hgiven
    rw [(ht k).1 v hv, (hs k).1 v hv]
  · have hnone := not_exists.mp hgiven
    rw [(ht k).2 hnone, (hs k).2 hnone]

/-- What is loaded from a document is what it gives, set in order. -/
theorem ofFile_eq {content : Except FileError (List UInt8)} (hdocument : IsDocument content root)
    (hplain : Plain root) :
    ofFile content = ((root.flatMap givenIn).foldlM setKey {}).mapError .misfit := by
  obtain ⟨octets, text, rfl, htext, hroot⟩ := hdocument
  have hload : ofFile (.ok octets) = ofText text := by
    show (fileText octets).mapError Error.file >>= ofText = ofText text
    rw [htext]
    rfl
  rw [hload, ofText, hroot, ← foldlM_setEntry hplain.sections]
  rfl

/-- **Loading fills in exactly what is missing.** A document is loaded if and only if every value
that it gives under a key is legal. What is loaded then holds the values given and else the defaults,
and nothing else does. One illegal value makes an error, whatever the other values are. -/
theorem ofFile_document {content : Except FileError (List UInt8)} {root : List (String × Value)}
    (hdocument : IsDocument content root) (hplain : Plain root) :
    ((∃ s, ofFile content = .ok s) ↔ ∀ k v, Key.GivenIn k root v → k.Legal v) ∧
    (∀ s, ofFile content = .ok s → FilledFrom root s ∧ ∀ t, FilledFrom root t → t = s) ∧
    (∀ k v, Key.GivenIn k root v → ¬ k.Legal v → ∃ m, ofFile content = .error (.misfit m)) := by
  have hload := ofFile_eq hdocument hplain
  have hillegal : ∀ k v, Key.GivenIn k root v → ¬ k.Legal v →
      ∃ m, ofFile content = .error (.misfit m) := by
    intro k v hgiven hnot
    obtain ⟨m, hm⟩ := foldlM_setKey_eq_error
      (fun entries hmode => hplain.mode entries (mem_givenIn_iff.mp hmode))
      (mem_givenIn_iff.mpr hgiven) hnot {}
    exact ⟨m, by rw [hload, hm]; rfl⟩
  have hlegal : (∀ k v, Key.GivenIn k root v → k.Legal v) →
      ∃ s, ofFile content = .ok s ∧ FilledFrom root s := by
    intro hall
    obtain ⟨octets, text, -, -, hroot⟩ := hdocument
    have hdistinct := Toml.ofText?_distinct hroot
    have hunique : ∀ k v w, (k, v) ∈ root.flatMap givenIn → (k, w) ∈ root.flatMap givenIn →
        v = w := fun k v w hv hw =>
      Key.GivenIn.unique hdistinct (mem_givenIn_iff.mp hv) (mem_givenIn_iff.mp hw)
    obtain ⟨s, hs, hheld⟩ :=
      exists_foldlM_setKey hunique (fun k v hv => hall k v (mem_givenIn_iff.mp hv)) {}
    simp only [mem_givenIn_iff] at hheld
    exact ⟨s, by rw [hload, hs]; rfl, hheld⟩
  have hloaded : ∀ s, ofFile content = .ok s → ∀ k v, Key.GivenIn k root v → k.Legal v := by
    intro s hs k v hgiven
    by_contra hnot
    obtain ⟨m, hm⟩ := hillegal k v hgiven hnot
    rw [hs] at hm
    cases hm
  refine ⟨⟨?_, ?_⟩, ?_, hillegal⟩
  · intro h
    obtain ⟨s, hs⟩ := h
    exact hloaded s hs
  · intro h
    obtain ⟨s, hs, -⟩ := hlegal h
    exact ⟨s, hs⟩
  · intro s hs
    obtain ⟨s', hs', hfilled⟩ := hlegal (hloaded s hs)
    cases Except.ok.inj (hs.symm.trans hs')
    exact ⟨hfilled, fun t ht => hfilled.unique ht⟩

/-- A document with keys in an order of their own and unknown ones among them. -/
def unordered : List Char :=
  "x = 1\n[echo]\nmax_body_bytes = 0\ncolour = \"red\"\nmode = \"base64\"\n[listener]\n".toList

/-- The document's root table. -/
def unorderedRoot : List (String × Value) :=
  [("x", .integer 1),
    ("echo", .table [("max_body_bytes", .integer 0), ("colour", .string "red"),
      ("mode", .string "base64")]),
    ("listener", .table [])]

theorem isDocument_unordered : IsDocument (.ok (Utf8.encode unordered)) unorderedRoot := by
  have htext : fileText (Utf8.encode unordered) = .ok unordered := by
    rw [fileText, Utf8.decode?_encode]
  have hroot : Toml.ofText? unordered = some unorderedRoot := by
    unfold unordered unorderedRoot
    cbv
  exact ⟨Utf8.encode unordered, unordered, rfl, htext, hroot⟩

theorem givenIn_unorderedRoot {k : Key} {v : Value} :
    k.GivenIn unorderedRoot v ↔
      k = .maxBodyBytes ∧ v = .integer 0 ∨ k = .mode ∧ v = .string "base64" := by
  have hgiven : unorderedRoot.flatMap givenIn =
      [(.maxBodyBytes, .integer 0), (.mode, .string "base64")] := by
    rfl
  rw [← mem_givenIn_iff, hgiven]
  simp

theorem plain_unorderedRoot : Plain unorderedRoot := by
  constructor
  · intro k v h
    cases k <;> simp_all [unorderedRoot, Key.table]
  · intro entries h
    simp [givenIn_unorderedRoot] at h

theorem ofFile_document_unordered :
    IsDocument (.ok (Utf8.encode unordered)) unorderedRoot ∧ Plain unorderedRoot ∧
      ofFile (.ok (Utf8.encode unordered)) = .ok { mode := .base64, maxBodyBytes := 0 } := by
  obtain ⟨hiff, hfilled, -⟩ := ofFile_document isDocument_unordered plain_unorderedRoot
  have hlegal : ∀ k v, Key.GivenIn k unorderedRoot v → k.Legal v := by
    intro k v h
    rcases givenIn_unorderedRoot.mp h with ⟨rfl, rfl⟩ | ⟨rfl, rfl⟩
    · exact ⟨0, rfl⟩
    · exact Or.inr rfl
  obtain ⟨s, hs⟩ := hiff.mpr hlegal
  have hheld : FilledFrom unorderedRoot { mode := .base64, maxBodyBytes := 0 } := by
    intro k
    cases k <;> simp [givenIn_unorderedRoot, value, Mode.name]
  rw [(hfilled s hs).2 _ hheld]
  exact ⟨isDocument_unordered, plain_unorderedRoot, hs⟩

end Settings
end HttpEcho
