import HttpEcho.Proofs.Http.Case
import HttpEcho.Proofs.Http.Dump

/-! The order of a dump.

Fields are given one after another, with names in whatever case; the dump has them grouped by name.
`grouped` says in which order that is, without any map: the names as they first came, and for each
the fields of that name as they came. The invariant `Groups` carries this from field to field, and
`write_grouped` says what a dump adds to a buffer: one line for each field that was given. -/
namespace HttpEcho.Http

/-! ### Fields that are given -/

/-- The octets of a name, in whatever case, and of a value. -/
abbrev GivenField := List UInt8 × List UInt8

namespace GivenField

/-- What makes a field: its name is a token that is not too long, and its value has no controls but
tabs. -/
structure IsField (p : GivenField) : Prop where
  token : isToken (nameText p.1)
  length : p.1.length ≤ 65535
  value : ∀ b ∈ p.2, b = 9 ∨ (32 ≤ b ∧ b ≠ 127)

/-- The name of a field, without its case. -/
def key (p : GivenField) : List Char :=
  caseless (nameText p.1)

/-- The line of a field. -/
def line (p : GivenField) : List UInt8 :=
  Utf8.encode (canonicalCase (nameText p.1)) ++ 0x3A :: 0x20 :: Utf8.encode (Utf8.decodeLossy p.2)

end GivenField

open GivenField (IsField key line)

theorem isTokenChar_toLower {c : Char} (h : isTokenChar c) : isTokenChar c.toLower := by
  have hall : ∀ n < 128, isTokenChar (Char.ofNat n) → isTokenChar (Char.ofNat n).toLower := by
    decide +kernel
  have hc := hall c.toNat (isTokenChar_lt h)
  rw [Char.ofNat_toNat] at hc
  exact hc h

theorem GivenField.IsField.exists_name {p : GivenField} (h : IsField p) :
    ∃ n, HeaderName.ofOctets? p.1 = some n ∧ n.text = key p := by
  have hkey : p.1.map (fun b => (Char.ofNat b.toNat).toLower) = key p := by
    simp [key, caseless, nameText]
  obtain ⟨hsome, hchars⟩ := (Bool.and_eq_true _ _).mp h.token
  have hname : isToken (key p) && !(key p).any Char.isUpper := by
    simp only [isToken, key, caseless, List.isEmpty_map, hsome, List.all_map, List.any_map,
      Bool.and_eq_true, List.all_eq_true, Bool.not_eq_true', List.any_eq_false, true_and]
    exact ⟨fun c hc => isTokenChar_toLower (List.all_eq_true.mp hchars c hc), by simp⟩
  refine ⟨⟨key p, hname⟩, ?_, rfl⟩
  unfold HeaderName.ofOctets?
  simp only [hkey]
  rw [dif_pos hname]
  exact if_pos h.length

theorem all_isValueOctet_iff {octets : List UInt8} :
    octets.all isValueOctet ↔ ∀ b ∈ octets, b = 9 ∨ (32 ≤ b ∧ b ≠ 127) := by
  simp [isValueOctet]

theorem GivenField.IsField.exists_value {p : GivenField} (h : IsField p) :
    ∃ v, HeaderValue.ofOctets? p.2 = some v ∧ v.octets = p.2 := by
  have hvalid : p.2.all isValueOctet := all_isValueOctet_iff.mpr h.value
  exact ⟨⟨p.2, hvalid⟩, dif_pos hvalid, rfl⟩

/-! ### The order -/

/-- The names of fields, each where it first came. -/
def firstNames (fields : List GivenField) : List (List Char) :=
  (fields.map key).eraseDups

/-- The fields of a name. -/
def named (name : List Char) (fields : List GivenField) : List GivenField :=
  fields.filter (key · = name)

/-- The fields by the first place of their name, and those of one name as they came. -/
def grouped (fields : List GivenField) : List GivenField :=
  (firstNames fields).flatMap fun name => named name fields

theorem mem_firstNames_iff {fields : List GivenField} {name : List Char} :
    name ∈ firstNames fields ↔ ∃ p ∈ fields, key p = name := by
  unfold firstNames
  rw [List.mem_eraseDups, List.mem_map]

theorem firstNames_concat (fields : List GivenField) (p : GivenField) :
    firstNames (fields ++ [p]) =
      if key p ∈ firstNames fields then firstNames fields else firstNames fields ++ [key p] := by
  unfold firstNames
  rw [List.map_append, List.eraseDups_append, List.map_singleton]
  simp only [List.mem_eraseDups]
  by_cases h : key p ∈ fields.map key
  · rw [if_pos h]
    simp [List.removeAll, h]
  · rw [if_neg h]
    simp [List.removeAll, h, List.eraseDups_cons]

theorem nodup_firstNames (fields : List GivenField) : (firstNames fields).Nodup := by
  induction fields using List.reverseRecOn with
  | nil => exact List.nodup_nil
  | append_singleton fields p ih =>
    rw [firstNames_concat]
    split
    · exact ih
    · next hnew => exact List.nodup_append.mpr ⟨ih, List.nodup_singleton _, by
        intro a ha b hb
        rw [List.mem_singleton.mp hb]
        exact fun he => hnew (he ▸ ha)⟩

theorem named_concat (name : List Char) (fields : List GivenField) (p : GivenField) :
    named name (fields ++ [p]) = named name fields ++ if key p = name then [p] else [] := by
  unfold named
  rw [List.filter_append, List.filter_singleton]
  simp

theorem named_eq_nil {name : List Char} {fields : List GivenField}
    (h : name ∉ firstNames fields) : named name fields = [] :=
  List.filter_eq_nil_iff.mpr fun p hp hname =>
    h (mem_firstNames_iff.mpr ⟨p, hp, of_decide_eq_true hname⟩)

/-- One name among names that all differ. -/
theorem flatMap_ite_eq {α : Type} {names : List (List Char)} (h : names.Nodup) (name : List Char)
    (l : List α) :
    (names.flatMap fun n => if n = name then l else []) = if name ∈ names then l else [] := by
  induction names with
  | nil => rfl
  | cons n names ih =>
    obtain ⟨hn, hnames⟩ := List.nodup_cons.mp h
    rw [List.flatMap_cons, ih hnames]
    by_cases he : n = name
    · subst he
      simp [hn]
    · simp [he, Ne.symm he]

/-- The fields of a name keep their order. -/
theorem named_grouped (name : List Char) (fields : List GivenField) :
    named name (grouped fields) = named name fields := by
  have hone : ∀ n, named name (named n fields) = if n = name then named name fields else [] := by
    intro n
    unfold named
    rw [List.filter_filter]
    by_cases he : n = name
    · subst he
      simp
    · rw [if_neg he, List.filter_eq_nil_iff]
      intro p _ hboth
      simp only [Bool.and_eq_true, decide_eq_true_eq] at hboth
      exact he (hboth.2.symm.trans hboth.1)
  calc named name (grouped fields)
      = (firstNames fields).flatMap fun n => named name (named n fields) := List.filter_flatMap
    _ = (firstNames fields).flatMap fun n => if n = name then named name fields else [] := by
        simp only [hone]
    _ = named name fields := by
        rw [flatMap_ite_eq (nodup_firstNames fields)]
        split
        · rfl
        · next hnew => exact (named_eq_nil hnew).symm

/-- No field is lost, and none comes twice. -/
theorem grouped_perm (fields : List GivenField) : (grouped fields).Perm fields := by
  refine List.perm_iff_count.mpr fun p => ?_
  have hcount : ∀ l : List GivenField, (named (key p) l).count p = l.count p :=
    fun l => List.count_filter (decide_eq_true rfl)
  rw [← hcount, named_grouped, hcount]

/-! ### The map -/

theorem HeaderName.ext {a b : HeaderName} (h : a.text = b.text) : a = b := by
  cases a
  cases b
  cases h
  rfl

/-- A group as octets. -/
def groupOctets (g : HeaderName × List HeaderValue) : List Char × List (List UInt8) :=
  (g.1.text, g.2.map (·.octets))

/-- The groups of a map are those of the fields it was given. -/
def Headers.Groups (h : Headers) (fields : List GivenField) : Prop :=
  h.groups.map groupOctets =
    (firstNames fields).map fun name => (name, (named name fields).map Prod.snd)

/-- A value goes to the end of its group; a name that is new, to the end of the groups. -/
theorem map_groupOctets_appendTo (name : HeaderName) (value : HeaderValue)
    {groups : List (HeaderName × List HeaderValue)} {names : List (List Char)}
    {values : List Char → List (List UInt8)} (hnames : names.Nodup)
    (hnew : name.text ∉ names → values name.text = [])
    (hgroups : groups.map groupOctets = names.map fun n => (n, values n)) :
    (appendTo name value groups).map groupOctets =
      (if name.text ∈ names then names else names ++ [name.text]).map fun n =>
        (n, values n ++ if name.text = n then [value.octets] else []) := by
  induction names generalizing groups with
  | nil =>
    obtain rfl := List.map_eq_nil_iff.mp hgroups
    simp [appendTo, groupOctets, hnew]
  | cons n names ih =>
    obtain ⟨hn, htail⟩ := List.nodup_cons.mp hnames
    obtain ⟨g, rest, rfl, hg, hrest⟩ := List.map_eq_cons_iff.mp hgroups
    obtain ⟨first, firstValues⟩ := g
    obtain ⟨rfl, hvalues⟩ := Prod.mk.inj hg
    unfold appendTo
    by_cases he : first = name
    · subst he
      have hothers : ∀ m ∈ names, first.text ≠ m := fun m hm he => hn (he ▸ hm)
      rw [if_pos rfl, if_pos List.mem_cons_self, List.map_cons, List.map_cons, hrest]
      refine congrArg₂ _ ?_ (List.map_congr_left fun m hm => ?_)
      · simp [groupOctets, ← hvalues]
      · simp [hothers m hm]
    · have hne : name.text ≠ first.text := fun htext => he (HeaderName.ext htext.symm)
      have hrec := ih htail (fun hnone => hnew (by simp [hne, hnone])) hrest
      have hmem : name.text ∈ first.text :: names ↔ name.text ∈ names := by simp [hne]
      rw [if_neg he, List.map_cons, hrec, if_congr hmem rfl rfl]
      split <;> simp [groupOctets, ← hvalues, hne]

theorem Headers.Groups.append {h : Headers} {fields : List GivenField} (hh : h.Groups fields)
    {p : GivenField} {name : HeaderName} {value : HeaderValue} (hname : name.text = key p)
    (hvalue : value.octets = p.2) : (h.append name value).Groups (fields ++ [p]) := by
  have hnew : name.text ∉ firstNames fields → (named name.text fields).map Prod.snd = [] :=
    fun hnone => by rw [named_eq_nil hnone, List.map_nil]
  have happend := map_groupOctets_appendTo name value (nodup_firstNames fields) hnew hh
  show (appendTo name value h.groups).map groupOctets = _
  rw [happend, hname, hvalue, firstNames_concat]
  refine List.map_congr_left fun n _ => ?_
  rw [named_concat, List.map_append]
  split <;> rfl

theorem Headers.Groups.ofOctets {h : Headers} {before fields : List GivenField}
    (hh : h.Groups before) (hfields : ∀ p ∈ fields, IsField p) :
    ∃ h', h.ofOctets fields = .ok h' ∧ h'.Groups (before ++ fields) := by
  induction fields generalizing h before with
  | nil => exact ⟨h, rfl, by rwa [List.append_nil]⟩
  | cons p fields ih =>
    obtain ⟨hp, hfields⟩ := List.forall_mem_cons.mp hfields
    obtain ⟨name, hname, hkey⟩ := hp.exists_name
    obtain ⟨value, hvalue, hoctets⟩ := hp.exists_value
    obtain ⟨h', hok, hgroups⟩ := ih (hh.append hkey hoctets) hfields
    refine ⟨h', ?_, by rwa [List.append_cons]⟩
    unfold Headers.ofOctets
    rw [hname, hvalue]
    exact hok

/-- The fields of a map, in the order of their lines. -/
theorem Headers.Groups.map_fields {h : Headers} {fields : List GivenField}
    (hh : h.Groups fields) :
    h.fields.map (fun f => (f.1.text, f.2.octets)) =
      (grouped fields).map fun p => (key p, p.2) := by
  have hall : h.fields.map (fun f => (f.1.text, f.2.octets)) =
      (h.groups.map groupOctets).flatMap fun g => g.2.map (g.1, ·) := by
    unfold Headers.fields groupOctets
    rw [List.map_flatMap, List.flatMap_map]
    simp only [List.map_map]
    rfl
  have hname : ∀ name, ((named name fields).map Prod.snd).map (name, ·) =
      (named name fields).map fun p => (key p, p.2) := by
    intro name
    rw [List.map_map]
    refine List.map_congr_left fun p hp => ?_
    rw [of_decide_eq_true (List.mem_filter.mp hp).2]
    rfl
  rw [hall, hh, List.flatMap_map, grouped, List.map_flatMap]
  simp only [hname]

theorem Headers.Groups.map_fieldLine {h : Headers} {fields : List GivenField}
    (hh : h.Groups fields) : h.fields.map fieldLine = (grouped fields).map line := by
  have hline : ∀ p : GivenField, line p = Utf8.encode (canonicalCase (key p)) ++
      0x3A :: 0x20 :: Utf8.encode (Utf8.decodeLossy p.2) := by
    intro p
    rw [key, canonicalCase_caseless]
    rfl
  have hmap := congrArg (List.map fun f : List Char × List UInt8 =>
    Utf8.encode (canonicalCase f.1) ++ 0x3A :: 0x20 :: Utf8.encode (Utf8.decodeLossy f.2))
    hh.map_fields
  rw [List.map_map, List.map_map] at hmap
  rw [funext hline]
  exact hmap

theorem dumpOf_eq (fields : List (HeaderName × HeaderValue)) :
    dumpOf fields = (fields.map fieldLine).flatMap (· ++ [0x0A]) := by
  rw [List.flatMap_map]
  rfl

/-- **A dump groups fields by name and loses none.** Whatever fields were given, and whatever a
buffer holds before, the dump adds one line for each field and nothing else: the names in the order
in which they first came, in whatever case, and the fields of one name as they came. Names are shown
alike just when they differ in nothing but case. -/
theorem write_grouped (fields : List GivenField) (hfields : ∀ p ∈ fields, IsField p) :
    ∃ h, Headers.ofOctets {} fields = .ok h ∧
      (∀ out : Buffer, (h.write out).toList =
        out.toList ++ (grouped fields).flatMap fun p => line p ++ [0x0A]) ∧
      dumpLines (h.write #[]).toList = (grouped fields).map line ∧
      (grouped fields).Perm fields ∧
      (∀ name, named name (grouped fields) = named name fields) ∧
      ∀ p q : GivenField, canonicalCase (nameText p.1) = canonicalCase (nameText q.1) ↔
        key p = key q := by
  have hempty : Headers.Groups {} [] := rfl
  obtain ⟨h, hok, hgroups⟩ := hempty.ofOctets hfields
  rw [List.nil_append] at hgroups
  have hdump : dumpOf h.fields = (grouped fields).flatMap fun p => line p ++ [0x0A] := by
    rw [dumpOf_eq, hgroups.map_fieldLine, List.flatMap_map]
  refine ⟨h, hok, fun out => ?_, ?_, grouped_perm fields, fun name => named_grouped name fields,
    fun p q => canonicalCase_eq_iff⟩
  · rw [toList_write, hdump]
  · have hwrite : (h.write #[]).toList = dumpOf h.fields := toList_write h #[]
    rw [hwrite, dumpLines_dumpOf, hgroups.map_fieldLine]

/-- Three fields of two names, one of them in two cases. -/
def mixedFields : List GivenField :=
  [(Utf8.encode "X-a".toList, [0x31]), (Utf8.encode "x-b".toList, [0xFF]),
    (Utf8.encode "x-A".toList, [0x32])]

theorem isField_of_mem_mixedFields : ∀ p ∈ mixedFields, IsField p := by
  have hshort : ∀ p ∈ mixedFields, p.1.length = 3 := by decide
  have htoken : ∀ p ∈ mixedFields, isToken (nameText p.1) := by decide
  have hvalue : ∀ p ∈ mixedFields, p.2.all isValueOctet := by decide
  intro p hp
  have hlength := hshort p hp
  exact ⟨htoken p hp, by omega, all_isValueOctet_iff.mp (hvalue p hp)⟩

theorem write_grouped_mixedFields : (∀ p ∈ mixedFields, IsField p) ∧
    ∃ h, Headers.ofOctets {} mixedFields = .ok h ∧ ∀ out : Buffer, (h.write out).toList =
      out.toList ++ Utf8.encode "X-A: 1\nX-A: 2\nX-B: \uFFFD\n".toList := by
  have hlines : ((grouped mixedFields).flatMap fun p => line p ++ [0x0A]) =
      Utf8.encode "X-A: 1\nX-A: 2\nX-B: \uFFFD\n".toList := by decide
  obtain ⟨h, hok, hwrite, -⟩ := write_grouped mixedFields isField_of_mem_mixedFields
  exact ⟨isField_of_mem_mixedFields, h, hok, fun out => hlines ▸ hwrite out⟩

end HttpEcho.Http
