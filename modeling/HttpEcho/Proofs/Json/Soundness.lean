import HttpEcho.Proofs.Json.Lexemes

/-! What a reader accepts is of the grammar.

A state stands for the text behind it: `IsOpen` is the text of the arrays and objects that are
open, each with the items or members before the one being read, and `State.Reads` adds what has
been read of that one. A token keeps it so (`State.Reads.push`), hence every text of tokens and
blanks does (`State.reads_of_lexes`), and at the end nothing is open. -/
namespace HttpEcho.Json
open Grammar

theorem Grammar.Blanks.snoc {a : List Char} {c : Char} (h : Blanks a) (hc : isBlank c) :
    Blanks (a ++ [c]) :=
  h.append fun d hd => by rw [List.mem_singleton.mp hd]; exact isBlank_iff.mp hc

theorem Grammar.IsElement.snoc {w : List Char} {t : Tree} {c : Char} (h : IsElement w t)
    (hc : isBlank c) : IsElement (w ++ [c]) t := by
  cases h with
  | mk ha hv hb => simpa using IsElement.mk ha hv (hb.snoc hc)

theorem Grammar.IsName.snoc {w : List Char} {name : String} {c : Char} (h : IsName w name)
    (hc : isBlank c) : IsName (w ++ [c]) name := by
  cases h with
  | mk ha hs hb => simpa using IsName.mk ha hs (hb.snoc hc)

/-- A value behind blanks. -/
theorem Grammar.IsValue.after {a w : List Char} {t : Tree} (h : IsValue w t) (ha : Blanks a) :
    IsElement (a ++ w) t := by
  simpa using IsElement.mk ha h .nil

/-! ### Open arrays and objects -/

/-- The items before the one being read, the last one first, with their commas. -/
inductive ItemsBefore : List Char → List Tree → Prop where
  | nil : ItemsBefore [] []
  | snoc {w x t ts} : ItemsBefore w ts → IsElement x t → ItemsBefore (w ++ (x ++ [','])) (t :: ts)

/-- The members before the one being read, the last one first, with their commas. -/
inductive MembersBefore : List Char → List (String × Tree) → Prop where
  | nil : MembersBefore [] []
  | snoc {w k x name t ms} : MembersBefore w ms → IsName k name → IsElement x t →
      MembersBefore (w ++ (k ++ ':' :: (x ++ [',']))) ((name, t) :: ms)

theorem ItemsBefore.append {w x : List Char} {read ts : List Tree} (h : ItemsBefore w read)
    (hx : IsItems x ts) : IsItems (w ++ x) (read.reverse ++ ts) := by
  induction h generalizing x ts with
  | nil => exact hx
  | snoc _ he ih => simpa using ih (.more he hx)

theorem MembersBefore.append {w x : List Char} {read ms : List (String × Tree)}
    (h : MembersBefore w read) (hx : IsMembers x ms) :
    IsMembers (w ++ x) (read.reverse ++ ms) := by
  induction h generalizing x ms with
  | nil => exact hx
  | snoc _ hk he ih => simpa using ih (.more hk he hx)

/-- The text of open arrays and objects, up to where the next value may stand. -/
inductive IsOpen : List Frame → List Char → Prop where
  | nil : IsOpen [] []
  | array {frames u b w items} : IsOpen frames u → Blanks b → ItemsBefore w items →
      IsOpen (.array items :: frames) (u ++ (b ++ '[' :: w))
  | object {frames u b w k members name} : IsOpen frames u → Blanks b → MembersBefore w members →
      IsName k name → IsOpen (.object members name :: frames) (u ++ (b ++ '{' :: (w ++ (k ++ [':']))))

/-- The text behind a state. -/
inductive State.Reads : State → List Char → Prop where
  | value {frames u b} : IsOpen frames u → Blanks b → Reads (.value frames) (u ++ b)
  | firstItem {frames u b b'} : IsOpen frames u → Blanks b → Blanks b' →
      Reads (.firstItem frames) (u ++ (b ++ '[' :: b'))
  | firstName {frames u b b'} : IsOpen frames u → Blanks b → Blanks b' →
      Reads (.firstName frames) (u ++ (b ++ '{' :: b'))
  | nextName {frames u b b' w members} : IsOpen frames u → Blanks b → MembersBefore w members →
      Blanks b' → Reads (.nextName members frames) (u ++ (b ++ '{' :: (w ++ b')))
  | colon {frames u b w k members name} : IsOpen frames u → Blanks b → MembersBefore w members →
      IsName k name → Reads (.colon members name frames) (u ++ (b ++ '{' :: (w ++ k)))
  | after {frames u x v} : IsOpen frames u → IsElement x v → Reads (.after v frames) (u ++ x)

/-! ### Steps -/

theorem State.Reads.blank {s : State} {text : List Char} {c : Char} (h : s.Reads text)
    (hc : isBlank c) : s.Reads (text ++ [c]) := by
  cases h with
  | value hu hb => simpa using State.Reads.value hu (hb.snoc hc)
  | firstItem hu hb hb' => simpa using State.Reads.firstItem hu hb (hb'.snoc hc)
  | firstName hu hb hb' => simpa using State.Reads.firstName hu hb (hb'.snoc hc)
  | nextName hu hb hw hb' => simpa using State.Reads.nextName hu hb hw (hb'.snoc hc)
  | colon hu hb hw hk => simpa using State.Reads.colon hu hb hw (hk.snoc hc)
  | after hu he => simpa using State.Reads.after hu (he.snoc hc)

/-- A token where a value must come, behind blanks. -/
theorem State.Reads.pushValue {s : State} {frames : List Frame} {t : Token} {u b x : List Char}
    (h : State.pushValue frames t = some s) (hu : IsOpen frames u) (hb : Blanks b)
    (ht : IsToken x t) : s.Reads (u ++ (b ++ x)) := by
  cases ht with
  | endArray | endObject | comma | colon => cases h
  | beginArray =>
    cases h
    exact .firstItem hu hb .nil
  | beginObject =>
    cases h
    exact .firstName hu hb .nil
  | null =>
    cases h
    exact .after hu (IsValue.null.after hb)
  | true =>
    cases h
    exact .after hu (IsValue.true.after hb)
  | false =>
    cases h
    exact .after hu (IsValue.false.after hb)
  | number hn =>
    cases h
    exact .after hu ((IsValue.number hn).after hb)
  | string hs =>
    cases h
    exact .after hu ((IsValue.string hs).after hb)

/-- A token after a value. -/
theorem State.Reads.pushAfter {s : State} {frames : List Frame} {v : Tree} {t : Token}
    {u e x : List Char} (h : State.pushAfter v frames t = some s) (hu : IsOpen frames u)
    (he : IsElement e v) (ht : IsToken x t) : s.Reads (u ++ (e ++ x)) := by
  cases hu with
  | nil => simp [State.pushAfter] at h
  | array hu hb hw =>
    cases ht with
    | comma =>
      cases h
      simpa using State.Reads.value (.array hu hb (hw.snoc he)) .nil
    | endArray =>
      cases h
      have hitems := hw.append (.one he)
      simpa using State.Reads.after hu ((IsValue.array hitems).after hb)
    | _ => simp [State.pushAfter] at h
  | object hu hb hw hk =>
    cases ht with
    | comma =>
      cases h
      simpa using State.Reads.nextName hu hb (hw.snoc hk he) .nil
    | endObject =>
      cases h
      have hmembers := hw.append (.one hk he)
      simpa using State.Reads.after hu ((IsValue.object hmembers).after hb)
    | _ => simp [State.pushAfter] at h

/-- **A token keeps a state's text of the grammar**, as far as it has come. -/
theorem State.Reads.push {s s' : State} {t : Token} {text x : List Char} (h : s.Reads text)
    (hp : s.push t = some s') (ht : IsToken x t) : s'.Reads (text ++ x) := by
  cases h with
  | value hu hb =>
    rw [List.append_assoc]
    exact .pushValue hp hu hb ht
  | @firstItem frames _ _ _ hu hb hb' =>
    by_cases he : t = .endArray
    · subst he
      cases ht
      cases hp
      simpa using State.Reads.after hu ((IsValue.emptyArray hb').after hb)
    · have hv : State.pushValue (.array [] :: frames) t = some s' := by
        cases t <;> first | exact absurd rfl he | exact hp
      simpa using State.Reads.pushValue hv (.array hu hb .nil) hb' ht
  | firstName hu hb hb' =>
    cases ht with
    | endObject =>
      cases hp
      simpa using State.Reads.after hu ((IsValue.emptyObject hb').after hb)
    | string hs =>
      cases hp
      simpa using State.Reads.colon hu hb .nil (.mk hb' hs .nil)
    | _ => cases hp
  | nextName hu hb hw hb' =>
    cases ht with
    | string hs =>
      cases hp
      simpa using State.Reads.colon hu hb hw (.mk hb' hs .nil)
    | _ => cases hp
  | colon hu hb hw hk =>
    cases ht with
    | colon =>
      cases hp
      simpa using State.Reads.value (.object hu hb hw hk) .nil
    | _ => cases hp
  | after hu he =>
    rw [List.append_assoc]
    exact .pushAfter hp hu he ht

/-! ### Runs -/

theorem State.pushAll_append (s : State) (a b : List Token) :
    s.pushAll (a ++ b) = (s.pushAll a).bind (·.pushAll b) :=
  List.foldlM_append ..

theorem State.pushAll_singleton (s : State) (t : Token) : s.pushAll [t] = s.push t := by
  simp [State.pushAll]

theorem State.reads_of_lexes {text : List Char} {ts : List Token} (h : Lexes text ts) {s : State}
    (hs : State.pushAll (.value []) ts = some s) : s.Reads text := by
  induction h generalizing s with
  | nil =>
    cases hs
    exact .value .nil .nil
  | blank _ hc ih => exact (ih hs).blank hc
  | token _ ht ih =>
    rw [State.pushAll_append, Option.bind_eq_some_iff] at hs
    obtain ⟨s₁, hs₁, hp⟩ := hs
    rw [State.pushAll_singleton] at hp
    exact (ih hs₁).push hp ht

/-- What a reader has read: its lexer a text of tokens, and its state those tokens. -/
def Reader.Reads (r : Reader) (text : List Char) : Prop :=
  ∃ ts, r.lexer.Reads text ts ∧ State.pushAll (.value []) ts = some r.state

theorem Reader.Reads.start : Reader.Reads {} [] :=
  ⟨[], ⟨[], [], rfl, .nil, .between⟩, rfl⟩

theorem Reader.Reads.push {r r' : Reader} {text : List Char} {c : Char} (h : r.Reads text)
    (hp : r.push c = some r') : r'.Reads (text ++ [c]) := by
  obtain ⟨ts, hl, hs⟩ := h
  simp only [Reader.push, Option.bind_eq_bind, Option.bind_eq_some_iff] at hp
  obtain ⟨⟨lexer, tokens⟩, hlexer, state, hstate, hr⟩ := hp
  cases hr
  refine ⟨ts ++ tokens, hl.push hlexer, ?_⟩
  rw [State.pushAll_append, hs]
  exact hstate

theorem Reader.Reads.pushAll {r r' : Reader} {text more : List Char} (h : r.Reads text)
    (hp : r.pushAll more = some r') : r'.Reads (text ++ more) := by
  induction more generalizing r text with
  | nil =>
    cases hp
    simpa using h
  | cons c more ih =>
    simp only [Reader.pushAll, List.foldlM_cons, Option.bind_eq_bind, Option.bind_eq_some_iff] at hp
    obtain ⟨r₁, h₁, hp⟩ := hp
    simpa using ih (h.push h₁) hp

theorem Reader.Reads.finish {r : Reader} {text : List Char} {t : Tree} (h : r.Reads text)
    (hf : r.finish = some t) : IsElement text t := by
  obtain ⟨ts, hl, hs⟩ := h
  simp only [Reader.finish, Option.bind_eq_bind, Option.bind_eq_some_iff] at hf
  obtain ⟨tokens, htokens, s, hstate, ht⟩ := hf
  have hreads : s.Reads text := by
    apply State.reads_of_lexes (hl.finish htokens)
    rw [State.pushAll_append, hs]
    exact hstate
  split at ht
  · cases ht
    cases hreads with
    | after hu he =>
      cases hu
      exact he
  · cases ht

/-- **A text that is read is of the grammar**, and says the tree that it is read as. -/
theorem isElement_of_parse? {text : List Char} {t : Tree} (h : Tree.parse? text = some t) :
    IsElement text t := by
  simp only [Tree.parse?, Option.bind_eq_bind, Option.bind_eq_some_iff] at h
  obtain ⟨r, hr, hf⟩ := h
  have hreads := Reader.Reads.start.pushAll hr
  exact hreads.finish hf

end HttpEcho.Json
