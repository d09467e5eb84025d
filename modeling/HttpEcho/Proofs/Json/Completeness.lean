import HttpEcho.Proofs.Json.Soundness

/-! What is of the grammar is read, as what it says.

`Reader.outcome` is what a reader makes of the text still to come. A phrase of the grammar in front
of any text moves the reader by one known step: a token is pushed (`outcome_token`), a value is
completed (`IsValue.outcome`), a container is closed. With the other direction, the reader and the
grammar agree on all texts (`Tree.parse?_eq_some_iff`), so that the grammar is unambiguous
(`Grammar.IsElement.unique`). -/
namespace HttpEcho.Json
open Grammar

/-- What a reader makes of the rest of the text. -/
def Reader.outcome (r : Reader) (rest : List Char) : Option Tree :=
  (r.pushAll rest).bind Reader.finish

/-- What goes on with neither a word nor a numeral. -/
def Delimited (rest : List Char) : Prop :=
  ∀ c ∈ rest.head?, isWordChar c = false ∧ isNumeralChar c = false

theorem delimited_of_blanks {b rest : List Char} (hb : Blanks b) (hr : Delimited rest) :
    Delimited (b ++ rest) := by
  cases b with
  | nil => exact hr
  | cons c b =>
    intro d hd
    cases hd
    rcases hb c (List.mem_cons_self ..) with rfl | rfl | rfl | rfl <;> decide

/-! ### Lexing -/

theorem Reader.outcome_cons (r : Reader) (c : Char) (rest : List Char) :
    r.outcome (c :: rest) = (r.push c).bind (·.outcome rest) := by
  simp [Reader.outcome, Reader.pushAll, Option.bind_assoc]

/-- A character that completes no token. -/
theorem Reader.outcome_silent {lexer lexer' : Lexer} {c : Char} (s : State) (rest : List Char)
    (h : lexer.push c = some (lexer', [])) :
    Reader.outcome ⟨lexer, s⟩ (c :: rest) = Reader.outcome ⟨lexer', s⟩ rest := by
  rw [Reader.outcome_cons]
  simp [Reader.push, h, State.pushAll]

/-- A character that completes one token. -/
theorem Reader.outcome_single {lexer lexer' : Lexer} {c : Char} {t : Token} (s : State)
    (rest : List Char) (h : lexer.push c = some (lexer', [t])) :
    Reader.outcome ⟨lexer, s⟩ (c :: rest) =
      (s.push t).bind fun s' => Reader.outcome ⟨lexer', s'⟩ rest := by
  rw [Reader.outcome_cons]
  cases hs : s.push t <;> simp [Reader.push, h, State.pushAll, hs]

theorem Reader.outcome_blanks {b : List Char} (hb : Blanks b) (s : State) (rest : List Char) :
    Reader.outcome ⟨.between, s⟩ (b ++ rest) = Reader.outcome ⟨.between, s⟩ rest := by
  induction b with
  | nil => rfl
  | cons c b ih =>
    have hc : isBlank c := isBlank_iff.mpr (hb c (List.mem_cons_self ..))
    have hpush : Lexer.between.push c = some (.between, []) := by
      simp [Lexer.push, Lexer.start, hc]
    rw [List.cons_append, Reader.outcome_silent _ _ hpush]
    exact ih fun d hd => hb d (List.mem_cons_of_mem c hd)

/-- A word or a numeral ends where what follows does not go on with it. -/
theorem Reader.outcome_ended {lexer : Lexer} {t : Token} {rest : List Char} (s : State)
    (hf : lexer.finish = some [t])
    (hp : ∀ c r, rest = c :: r →
      lexer.push c = (Lexer.start c).map fun (next, tokens) => (next, t :: tokens)) :
    Reader.outcome ⟨lexer, s⟩ rest =
      (s.push t).bind fun s' => Reader.outcome ⟨.between, s'⟩ rest := by
  cases rest with
  | nil =>
    have hb : Lexer.between.finish = some [] := rfl
    cases hs : s.push t <;>
      simp [Reader.outcome, Reader.pushAll, Reader.finish, hf, hb, State.pushAll, hs]
  | cons c r =>
    simp only [Reader.outcome_cons, Reader.push, hp c r rfl]
    cases hc : Lexer.start c <;> cases hs : s.push t <;>
      simp [Lexer.push, hc, hs, State.pushAll]

/-! ### Strings -/

theorem Reader.outcome_hexDigits {w rest : List Char} {n after : Nat} (h : HexDigits w n)
    (hl : w.length + after = 3) (read : List Char) (high : Option Nat) (s : State) :
    Reader.outcome ⟨.unit read high 3 0, s⟩ (w ++ rest) =
      Reader.outcome ⟨.unit read high after n, s⟩ rest := by
  induction h generalizing rest after with
  | nil =>
    simp only [List.length_nil, Nat.zero_add] at hl
    rw [hl, List.nil_append]
  | @snoc w c m n _ hc ih =>
    rw [List.length_append, List.length_singleton] at hl
    have hpush : (Lexer.unit read high (after + 1) m).push c =
        some (.unit read high after (16 * m + n), []) := by
      simp [Lexer.push, hexValue?_eq_some_iff.mpr hc]
    have hlength : w.length + (after + 1) = 3 := by omega
    rw [List.append_assoc, ih hlength, List.singleton_append, Reader.outcome_silent _ _ hpush]

theorem Reader.outcome_codeUnit {w rest read : List Char} {n : Nat} {high : Option Nat}
    {lexer : Lexer} (h : IsCodeUnit w n) (hu : Lexer.unitRead read high n = some lexer) (s : State) :
    Reader.outcome ⟨.unit read high 3 0, s⟩ (w ++ rest) = Reader.outcome ⟨lexer, s⟩ rest := by
  obtain ⟨hw, hl⟩ := h
  cases hw with
  | nil => cases hl
  | @snoc w c m n hw hc =>
    rw [List.length_append, List.length_singleton] at hl
    have hpush : (Lexer.unit read high 0 m).push c = some (lexer, []) := by
      simp [Lexer.push, hexValue?_eq_some_iff.mpr hc, hu]
    have hlength : w.length + 0 = 3 := by omega
    rw [List.append_assoc, Reader.outcome_hexDigits hw hlength, List.singleton_append,
      Reader.outcome_silent _ _ hpush]

/-- After a backslash and a `u`. -/
theorem Reader.outcome_escape_u (read rest : List Char) (s : State) :
    Reader.outcome ⟨.text read, s⟩ ('\\' :: 'u' :: rest) =
      Reader.outcome ⟨.unit read none 3 0, s⟩ rest := by
  have hescape : (Lexer.text read).push '\\' = some (.escape read, []) := rfl
  have hunit : (Lexer.escape read).push 'u' = some (.unit read none 3 0, []) := rfl
  rw [Reader.outcome_silent _ _ hescape, Reader.outcome_silent _ _ hunit]

theorem Reader.outcome_spelling {w : List Char} {c : Char} (h : IsSpelling w c)
    (read rest : List Char) (s : State) :
    Reader.outcome ⟨.text read, s⟩ (w ++ rest) = Reader.outcome ⟨.text (c :: read), s⟩ rest := by
  cases h with
  | plain hc hq hb =>
    have hpush : (Lexer.text read).push c = some (.text (c :: read), []) := by
      simp [Lexer.push, hq, hb, Char.not_lt.mpr hc]
    exact Reader.outcome_silent _ _ hpush
  | @short e _ he =>
    have hescape := escaped?_eq_some_iff.mpr he
    have hu : e ≠ 'u' := by
      intro he
      subst he
      cases hescape
    have hpush : (Lexer.escape read).push e = some (.text (c :: read), []) := by
      simp [Lexer.push, hu, hescape]
    have hbackslash : (Lexer.text read).push '\\' = some (.escape read, []) := rfl
    rw [List.cons_append, Reader.outcome_silent _ _ hbackslash]
    exact Reader.outcome_silent _ _ hpush
  | unit hw hn =>
    rw [List.cons_append, List.cons_append, Reader.outcome_escape_u,
      Reader.outcome_codeUnit hw (by rw [Lexer.unitRead, if_pos hn])]
  | @pair w x high low hw hx hhigh hhigh' hlow hlow' =>
    have hfirst : Lexer.unitRead read none high = some (.halfway read high) := by
      rw [Lexer.unitRead, if_neg (by omega), if_pos hhigh']
    have hsecond : Lexer.unitRead read (some high) low =
        some (.text (Char.ofNat (0x10000 + (high - 0xD800) * 0x400 + (low - 0xDC00)) :: read)) := by
      rw [Lexer.unitRead, if_pos ⟨hlow, hlow'⟩, Nat.add_assoc 0x10000, Nat.add_comm 0x10000]
    have hbackslash : (Lexer.halfway read high).push '\\' = some (.halfwayEscape read high, []) := rfl
    have hu : (Lexer.halfwayEscape read high).push 'u' = some (.unit read (some high) 3 0, []) := rfl
    simp only [List.cons_append, List.append_assoc]
    rw [Reader.outcome_escape_u, Reader.outcome_codeUnit hw hfirst,
      Reader.outcome_silent _ _ hbackslash, Reader.outcome_silent _ _ hu,
      Reader.outcome_codeUnit hx hsecond]

theorem Reader.outcome_spellings {w cs : List Char} (h : IsSpellings w cs) (read rest : List Char)
    (s : State) : Reader.outcome ⟨.text read, s⟩ (w ++ rest) =
      Reader.outcome ⟨.text (cs.reverse ++ read), s⟩ rest := by
  induction h generalizing read with
  | nil => rfl
  | cons hw _ ih => simp [Reader.outcome_spelling hw, ih]

theorem Reader.outcome_string {w : List Char} {name : String} (h : IsString w name)
    (rest : List Char) (s : State) : Reader.outcome ⟨.between, s⟩ (w ++ rest) =
      (s.push (.string name)).bind fun s' => Reader.outcome ⟨.between, s'⟩ rest := by
  cases h with
  | @mk w cs hw =>
    have hpush : (Lexer.text cs.reverse).push '"' = some (.between, [.string (String.ofList cs)]) := by
      simp [Lexer.push]
    have hopen : Lexer.between.push '"' = some (.text [], []) := rfl
    rw [List.cons_append, Reader.outcome_silent _ _ hopen, List.append_assoc,
      Reader.outcome_spellings hw, List.append_nil, List.singleton_append,
      Reader.outcome_single _ _ hpush]

/-! ### Words and numerals -/

theorem Reader.outcome_wordChars {w : List Char} (hw : ∀ c ∈ w, isWordChar c)
    (read rest : List Char) (s : State) : Reader.outcome ⟨.word read, s⟩ (w ++ rest) =
      Reader.outcome ⟨.word (w.reverse ++ read), s⟩ rest := by
  induction w generalizing read with
  | nil => rfl
  | cons c w ih =>
    have hpush : (Lexer.word read).push c = some (.word (c :: read), []) := by
      simp [Lexer.push, hw c (List.mem_cons_self ..)]
    rw [List.cons_append, Reader.outcome_silent _ _ hpush,
      ih fun d hd => hw d (List.mem_cons_of_mem c hd)]
    simp

theorem Reader.outcome_word {c : Char} {w rest : List Char} {t : Token}
    (hw : word? (c :: w) = some t) (hc : Lexer.between.push c = some (.word [c], []))
    (hs : ∀ d ∈ w, isWordChar d) (hr : Delimited rest) (s : State) :
    Reader.outcome ⟨.between, s⟩ (c :: w ++ rest) =
      (s.push t).bind fun s' => Reader.outcome ⟨.between, s'⟩ rest := by
  rw [List.cons_append, Reader.outcome_silent _ _ hc, Reader.outcome_wordChars hs]
  apply Reader.outcome_ended
  · simp [Lexer.finish, hw]
  · intro d r he
    subst he
    have hd := (hr d rfl).1
    cases h : Lexer.start d <;> simp [Lexer.push, hd, hw, h]

theorem Reader.outcome_numeralChars {w : List Char} (hw : ∀ c ∈ w, isNumeralChar c)
    (read rest : List Char) (s : State) : Reader.outcome ⟨.numeral read, s⟩ (w ++ rest) =
      Reader.outcome ⟨.numeral (w.reverse ++ read), s⟩ rest := by
  induction w generalizing read with
  | nil => rfl
  | cons c w ih =>
    have hpush : (Lexer.numeral read).push c = some (.numeral (c :: read), []) := by
      simp [Lexer.push, hw c (List.mem_cons_self ..)]
    rw [List.cons_append, Reader.outcome_silent _ _ hpush,
      ih fun d hd => hw d (List.mem_cons_of_mem c hd)]
    simp

theorem isNumeralChar_of_isDigit {c : Char} (h : c.isDigit) : isNumeralChar c := by
  simp [isNumeralChar, h]

theorem Grammar.IsNumber.isNumeralChar {w : List Char} {n : Numeral} (h : IsNumber w n) :
    ∀ c ∈ w, isNumeralChar c := by
  have digits : ∀ {w : List Char}, (∀ d ∈ w, d.isDigit) → ∀ c ∈ w, Json.isNumeralChar c :=
    fun hw c hc => isNumeralChar_of_isDigit (hw c hc)
  cases h with
  | mk hs hw hf he =>
    intro c hc
    simp only [List.mem_append] at hc
    rcases hc with hc | hc | hc | hc
    · cases hs with
      | none => cases hc
      | minus =>
        rw [List.mem_singleton.mp hc]
        rfl
    · exact digits hw.isDigit c hc
    · cases hf with
      | none => cases hc
      | digits hd =>
        rcases List.mem_cons.mp hc with rfl | hc
        · rfl
        · exact digits hd.2 c hc
    · cases he with
      | none => cases hc
      | bare he hd =>
        rcases List.mem_cons.mp hc with rfl | hc
        · rcases he with rfl | rfl <;> rfl
        · exact digits hd.2 c hc
      | plus he hd | minus he hd =>
        rcases List.mem_cons.mp hc with rfl | hc
        · rcases he with rfl | rfl <;> rfl
        rcases List.mem_cons.mp hc with rfl | hc
        · rfl
        · exact digits hd.2 c hc

theorem Grammar.IsNumber.head {w : List Char} {n : Numeral} (h : IsNumber w n) :
    ∃ c r, w = c :: r ∧ (c = '-' ∨ c.isDigit) := by
  cases h with
  | mk hs hw hf he =>
    cases hs with
    | minus => exact ⟨'-', _, rfl, .inl rfl⟩
    | none =>
      cases hw with
      | zero => exact ⟨'0', _, rfl, .inr rfl⟩
      | digits hc _ _ => exact ⟨_, _, rfl, .inr hc⟩

theorem Lexer.push_numeral {c : Char} (h : c = '-' ∨ c.isDigit) :
    Lexer.between.push c = some (.numeral [c], []) := by
  have hne : ∀ d : Char, d.isDigit = false → d ≠ '-' → c ≠ d := by
    intro d hd hm
    rcases h with rfl | h
    · exact hm.symm
    · exact isDigit_ne h hd
  have hb : isBlank c = false := by
    simp [isBlank, hne ' ', hne '\t', hne '\n', hne '\r']
  show Lexer.start c = _
  unfold Lexer.start
  rw [if_neg (by simp [hb]), if_neg (hne '[' rfl (by decide)), if_neg (hne ']' rfl (by decide)),
    if_neg (hne '{' rfl (by decide)), if_neg (hne '}' rfl (by decide)),
    if_neg (hne ',' rfl (by decide)), if_neg (hne ':' rfl (by decide)),
    if_neg (hne '"' rfl (by decide)), if_pos h]

theorem Reader.outcome_number {w rest : List Char} {n : Numeral} (h : IsNumber w n)
    (hr : Delimited rest) (s : State) : Reader.outcome ⟨.between, s⟩ (w ++ rest) =
      (s.push (.number n)).bind fun s' => Reader.outcome ⟨.between, s'⟩ rest := by
  have hn := Numeral.ofChars?_eq_some_iff.mpr h
  have hchars := h.isNumeralChar
  obtain ⟨c, r, rfl, hc⟩ := h.head
  rw [List.cons_append, Reader.outcome_silent _ _ (Lexer.push_numeral hc),
    Reader.outcome_numeralChars fun d hd => hchars d (List.mem_cons_of_mem c hd)]
  apply Reader.outcome_ended
  · simp [Lexer.finish, hn]
  · intro d r he
    subst he
    have hd := (hr d rfl).2
    cases h : Lexer.start d <;> simp [Lexer.push, hd, hn, h]

/-! ### Values -/

/-- A state in which a value must come, and which a value leaves with these frames. -/
def State.Awaits (s : State) (frames : List Frame) : Prop :=
  ∀ t, t ≠ .endArray → s.push t = State.pushValue frames t

theorem State.awaits_value (frames : List Frame) : (State.value frames).Awaits frames :=
  fun _ _ => rfl

theorem State.awaits_firstItem (frames : List Frame) :
    (State.firstItem frames).Awaits (.array [] :: frames) := by
  intro t ht
  cases t <;> first | exact absurd rfl ht | rfl

/-- A state in which a name must come, after these members. -/
def State.AwaitsName (s : State) (members : List (String × Tree)) (frames : List Frame) : Prop :=
  ∀ name, s.push (.string name) = some (.colon members name frames)

theorem State.awaitsName_firstName (frames : List Frame) :
    (State.firstName frames).AwaitsName [] frames :=
  fun _ => rfl

theorem State.awaitsName_nextName (members : List (String × Tree)) (frames : List Frame) :
    (State.nextName members frames).AwaitsName members frames :=
  fun _ => rfl

/-- A token that is one character. -/
theorem Reader.outcome_mark {c : Char} {t : Token} {s s' : State}
    (hc : Lexer.between.push c = some (.between, [t])) (hs : s.push t = some s')
    (rest : List Char) :
    Reader.outcome ⟨.between, s⟩ (c :: rest) = Reader.outcome ⟨.between, s'⟩ rest := by
  rw [Reader.outcome_single _ _ hc, hs]
  rfl

theorem Reader.outcome_name {w : List Char} {name : String} (h : IsName w name) {s : State}
    {members : List (String × Tree)} {frames : List Frame} (hs : s.AwaitsName members frames)
    (rest : List Char) : Reader.outcome ⟨.between, s⟩ (w ++ ':' :: rest) =
      Reader.outcome ⟨.between, .value (.object members name :: frames)⟩ rest := by
  cases h with
  | mk ha hw hb =>
    rw [List.append_assoc, List.append_assoc, Reader.outcome_blanks ha, Reader.outcome_string hw, hs]
    show Reader.outcome ⟨.between, .colon members name frames⟩ _ = _
    rw [Reader.outcome_blanks hb, Reader.outcome_mark rfl rfl]

theorem delimited_cons {c : Char} (h : isWordChar c = false ∧ isNumeralChar c = false)
    (rest : List Char) : Delimited (c :: rest) := by
  intro d hd
  cases hd
  exact h

mutual

theorem Grammar.IsValue.outcome {w : List Char} {t : Tree} : IsValue w t →
    ∀ {s : State} {frames : List Frame} {rest : List Char}, s.Awaits frames → Delimited rest →
      Reader.outcome ⟨.between, s⟩ (w ++ rest) = Reader.outcome ⟨.between, .after t frames⟩ rest
  | .null, s, frames, rest, hs, hr => by
    rw [Reader.outcome_word rfl rfl (List.all_eq_true.mp rfl) hr, hs _ (by simp)]
    rfl
  | .true, s, frames, rest, hs, hr => by
    rw [Reader.outcome_word rfl rfl (List.all_eq_true.mp rfl) hr, hs _ (by simp)]
    rfl
  | .false, s, frames, rest, hs, hr => by
    rw [Reader.outcome_word rfl rfl (List.all_eq_true.mp rfl) hr, hs _ (by simp)]
    rfl
  | .number hn, s, frames, rest, hs, hr => by
    rw [Reader.outcome_number hn hr, hs _ (by simp)]
    rfl
  | .string hw, s, frames, rest, hs, hr => by
    rw [Reader.outcome_string hw, hs _ (by simp)]
    rfl
  | .emptyArray hb, s, frames, rest, hs, hr => by
    rw [List.cons_append, List.append_assoc, Reader.outcome_mark rfl (hs .beginArray (by simp)),
      Reader.outcome_blanks hb]
    exact Reader.outcome_mark rfl rfl rest
  | .array hitems, s, frames, rest, hs, hr => by
    rw [List.cons_append, List.append_assoc, Reader.outcome_mark rfl (hs .beginArray (by simp))]
    exact hitems.outcome (State.awaits_firstItem frames)
  | .emptyObject hb, s, frames, rest, hs, hr => by
    rw [List.cons_append, List.append_assoc, Reader.outcome_mark rfl (hs .beginObject (by simp)),
      Reader.outcome_blanks hb]
    exact Reader.outcome_mark rfl rfl rest
  | .object hmembers, s, frames, rest, hs, hr => by
    rw [List.cons_append, List.append_assoc, Reader.outcome_mark rfl (hs .beginObject (by simp))]
    exact hmembers.outcome (State.awaitsName_firstName frames)

theorem Grammar.IsElement.outcome {w : List Char} {t : Tree} : IsElement w t →
    ∀ {s : State} {frames : List Frame} {rest : List Char}, s.Awaits frames → Delimited rest →
      Reader.outcome ⟨.between, s⟩ (w ++ rest) = Reader.outcome ⟨.between, .after t frames⟩ rest
  | .mk ha hv hb, s, frames, rest, hs, hr => by
    rw [List.append_assoc, List.append_assoc, Reader.outcome_blanks ha,
      hv.outcome hs (delimited_of_blanks hb hr), Reader.outcome_blanks hb]

theorem Grammar.IsItems.outcome {w : List Char} {items : List Tree} : IsItems w items →
    ∀ {s : State} {read : List Tree} {frames : List Frame} {rest : List Char},
      s.Awaits (.array read :: frames) →
      Reader.outcome ⟨.between, s⟩ (w ++ ([']'] ++ rest)) =
        Reader.outcome ⟨.between, .after (.array (read.reverse ++ items)) frames⟩ rest
  | .one he, s, read, frames, rest, hs => by
    rw [List.singleton_append, he.outcome hs (delimited_cons (by decide) rest),
      Reader.outcome_mark rfl rfl]
    simp
  | @IsItems.more _ _ t _ he hx, s, read, frames, rest, hs => by
    rw [List.append_assoc, List.cons_append, he.outcome hs (delimited_cons (by decide) _),
      Reader.outcome_mark rfl rfl, hx.outcome (State.awaits_value (.array (t :: read) :: frames))]
    simp

theorem Grammar.IsMembers.outcome {w : List Char} {members : List (String × Tree)} :
    IsMembers w members →
    ∀ {s : State} {read : List (String × Tree)} {frames : List Frame} {rest : List Char},
      s.AwaitsName read frames →
      Reader.outcome ⟨.between, s⟩ (w ++ (['}'] ++ rest)) =
        Reader.outcome ⟨.between, .after (.object (read.reverse ++ members)) frames⟩ rest
  | .one hk he, s, read, frames, rest, hs => by
    rw [List.append_assoc, List.cons_append, List.singleton_append, Reader.outcome_name hk hs,
      he.outcome (State.awaits_value _) (delimited_cons (by decide) rest), Reader.outcome_mark rfl rfl]
    simp
  | @IsMembers.more _ _ _ name t _ hk he hx, s, read, frames, rest, hs => by
    rw [List.append_assoc, List.cons_append, List.append_assoc, List.cons_append,
      Reader.outcome_name hk hs, he.outcome (State.awaits_value _) (delimited_cons (by decide) _),
      Reader.outcome_mark rfl rfl, hx.outcome (State.awaitsName_nextName ((name, t) :: read) frames)]
    simp

end

/-! ### Texts -/

theorem parse?_of_isElement {text : List Char} {t : Tree} (h : IsElement text t) :
    Tree.parse? text = some t := by
  have hend : Delimited [] := by simp [Delimited]
  have houtcome := h.outcome (State.awaits_value []) hend
  rw [List.append_nil] at houtcome
  exact houtcome

/-- **A text is read exactly when it is of the grammar**, and as the tree that it says. -/
theorem Tree.parse?_eq_some_iff {text : List Char} {t : Tree} :
    Tree.parse? text = some t ↔ IsElement text t :=
  ⟨isElement_of_parse?, parse?_of_isElement⟩

/-- A text says one tree. -/
theorem Grammar.IsElement.unique {text : List Char} {s t : Tree} (hs : IsElement text s)
    (ht : IsElement text t) : s = t := by
  rw [← Tree.parse?_eq_some_iff] at hs ht
  rw [hs] at ht
  exact Option.some.inj ht

end HttpEcho.Json
