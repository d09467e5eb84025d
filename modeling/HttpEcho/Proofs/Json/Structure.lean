import HttpEcho.Json.Denotation
import HttpEcho.Proofs.Json.Nesting

/-! The scan for nesting, beside the reader.

The scan takes the octets of a body before they are decoded, and any octets at all. It finds what it
would find in their text (`Scan.pushAll_eq_chars`): what is replaced in decoding is never a mark, and
an escape ends in its first octet either way. On the text it goes along with the reader
(`Scan.Follows`): as long as the reader has refused nothing, it has open exactly what the scan has.

The main result, `nestingDepth_structural`, says for every body that its depth is its text's, that
the reader never has more open than that, and that it is the nesting of the tree, if there is one. -/
namespace HttpEcho.Json

open Grammar

namespace Nesting

/-! ### Octets that are no characters -/

/-- What an octet does that is no mark: it takes the place behind a backslash, if that is next. -/
def Scan.pass (s : Scan) : Scan :=
  match s.place with
  | .escaped => { s with place := .inString }
  | _ => s

theorem Scan.pass_pass (s : Scan) : s.pass.pass = s.pass := by
  obtain ⟨place, depth, deepest⟩ := s
  cases place <;> rfl

theorem Scan.push_wide (s : Scan) {b : UInt8} (h : 0x80 ≤ b) : s.push b = s.pass := by
  have hne : ∀ m : UInt8, m < 0x80 → b ≠ m := fun m hm he => by
    subst he
    exact absurd h (UInt8.not_le.mpr hm)
  have hopen : ¬ (b = 0x5B ∨ b = 0x7B) := not_or.mpr ⟨hne _ (by decide), hne _ (by decide)⟩
  have hclose : ¬ (b = 0x5D ∨ b = 0x7D) := not_or.mpr ⟨hne _ (by decide), hne _ (by decide)⟩
  obtain ⟨place, depth, deepest⟩ := s
  cases place with
  | escaped => rfl
  | inString =>
    show (if b = 0x5C then _ else if b = 0x22 then _ else _) = _
    rw [if_neg (hne _ (by decide)), if_neg (hne _ (by decide))]
    rfl
  | outside =>
    show (if b = 0x22 then _ else if b = 0x5B ∨ b = 0x7B then _ else _) = _
    rw [if_neg (hne _ (by decide)), if_neg hopen, if_neg hclose]
    rfl

theorem Scan.pushAll_wide (s : Scan) {octets : List UInt8} (hne : octets ≠ [])
    (h : ∀ b ∈ octets, 0x80 ≤ b) : s.pushAll octets = s.pass := by
  induction octets generalizing s with
  | nil => exact absurd rfl hne
  | cons b rest ih =>
    show Scan.pushAll (s.push b) rest = s.pass
    rw [s.push_wide (h b List.mem_cons_self)]
    by_cases hrest : rest = []
    · rw [hrest]
      rfl
    · rw [ih s.pass hrest fun d hd => h d (List.mem_cons_of_mem b hd), s.pass_pass]

/-- A character beyond U+007F is octets beyond 0x7F. -/
theorem Scan.chars_wide (s : Scan) {c : Char} (h : 0x80 ≤ c.toNat) : s.chars [c] = s.pass := by
  have hne : String.utf8EncodeChar c ≠ [] := by
    rw [ne_eq, ← List.length_eq_zero_iff, String.length_utf8EncodeChar]
    exact Nat.ne_of_gt c.utf8Size_pos
  unfold Scan.chars
  rw [Utf8.encode_cons, Utf8.encode_nil, List.append_nil]
  exact s.pushAll_wide hne (Utf8.utf8EncodeChar_of_ge h)

/-- What several octets come to is no mark, even where it is no character. -/
theorem Scan.chars_ofNat (s : Scan) {n : Nat} (h : 0x80 ≤ n) : s.chars [Char.ofNat n] = s.pass := by
  by_cases hlt : (Char.ofNat n).toNat < 0x80
  · rw [Utf8.eq_zero_of_ofNat h hlt, s.chars_ascii (by decide)]
    obtain ⟨place, depth, deepest⟩ := s
    cases place <;> rfl
  · exact s.chars_wide (Nat.le_of_not_lt hlt)

/-- The scan behind a decoder: it has taken the decoder's text, and of a character that was begun
some octets. -/
def Scan.behind (s : Scan) (d : Utf8.Decoder) : Scan :=
  if d.pending.isSome then (s.chars d.text.reverse).pass else s.chars d.text.reverse

variable (s : Scan) {d : Utf8.Decoder}

theorem Scan.behind_replace : s.behind d.replace = (s.chars d.text.reverse).pass := by
  show s.chars (Utf8.replacement :: d.text).reverse = _
  rw [List.reverse_cons, Scan.chars_append, Scan.chars_wide _ (by decide)]

theorem Scan.behind_begin (h : d.pending = none) (b : UInt8) :
    s.behind (d.begin b) = (s.behind d).push b := by
  have hbehind : s.behind d = s.chars d.text.reverse := by
    unfold Scan.behind
    rw [h]
    rfl
  rw [hbehind]
  unfold Utf8.Decoder.begin
  cases hlead : Utf8.Lead.ofOctet b with
  | character c =>
    show s.chars (c :: d.text).reverse = _
    have hlt : c.toNat < 0x80 := by
      rw [Utf8.Lead.toNat_of_character hlead]
      exact UInt8.lt_iff_toNat_lt.mp (Utf8.Lead.lt_of_character hlead)
    rw [List.reverse_cons, Scan.chars_append, Scan.chars_ascii _ hlt,
      Utf8.Lead.octet_of_character hlead]
  | opening p =>
    rw [Scan.push_wide _ (Utf8.Lead.ge_of_no_character (by simp [hlead]))]
    rfl
  | stray =>
    rw [Scan.push_wide _ (Utf8.Lead.ge_of_no_character (by simp [hlead]))]
    exact s.behind_replace

/-- An octet keeps the scan behind the decoder. -/
theorem Scan.behind_push {given : List UInt8} (h : d.From given) (b : UInt8) :
    s.behind (d.push b) = (s.behind d).push b := by
  unfold Utf8.Decoder.push
  cases hpending : d.pending with
  | none => exact s.behind_begin hpending b
  | some p =>
    have hp := h.pending p hpending
    have hbehind : s.behind d = (s.chars d.text.reverse).pass := by
      unfold Scan.behind
      rw [hpending]
      rfl
    by_cases hin : p.low ≤ b ∧ b ≤ p.high
    · have hwide : 0x80 ≤ b := UInt8.le_iff_toNat_le.mpr
        (Nat.le_trans hp.low (UInt8.le_iff_toNat_le.mp hin.1))
      have hbits := hp.further hin.1
      simp only [if_pos hin]
      rw [hbehind, Scan.push_wide _ hwide, Scan.pass_pass]
      cases hafter : p.after with
      | zero =>
        rw [hafter, Nat.pow_zero, Nat.mul_one] at hbits
        show s.chars (_ :: d.text).reverse = _
        rw [List.reverse_cons, Scan.chars_append, Scan.chars_ofNat _ hbits]
      | succ n => rfl
    · simp only [if_neg hin]
      rw [s.behind_begin rfl, s.behind_replace, hbehind]

theorem Scan.behind_pushAll {given : List UInt8} (h : d.From given) (octets : List UInt8) :
    s.behind (d.pushAll octets) = (s.behind d).pushAll octets := by
  induction octets generalizing d given with
  | nil => rfl
  | cons b octets ih =>
    show s.behind ((d.push b).pushAll octets) = ((s.behind d).push b).pushAll octets
    rw [ih (h.push b), s.behind_push h b]

theorem Scan.behind_finish : s.chars d.finish.text.reverse = s.behind d := by
  unfold Utf8.Decoder.finish
  by_cases hpending : d.pending.isSome
  · rw [if_pos hpending]
    exact s.behind_replace.trans (if_pos hpending).symm
  · rw [if_neg hpending]
    exact (if_neg hpending).symm

/-- **The scan finds in octets what it finds in their text**, whether they encode it or not. -/
theorem Scan.pushAll_eq_chars (octets : List UInt8) :
    s.pushAll octets = s.chars (Utf8.decodeLossy octets) := by
  have hrun := s.behind_pushAll Utf8.Decoder.From.empty octets
  rw [← s.behind_finish] at hrun
  exact hrun.symm

/-! ### How deep a scan has been -/

theorem Scan.push_bounds (b : UInt8) (h : s.depth ≤ s.deepest) :
    s.deepest ≤ (s.push b).deepest ∧ (s.push b).depth ≤ (s.push b).deepest := by
  have hless : s.depth - 1 ≤ s.deepest := Nat.le_trans (Nat.sub_le _ _) h
  unfold Scan.push
  split
  · exact ⟨Nat.le_refl _, h⟩
  · split_ifs <;> exact ⟨Nat.le_refl _, h⟩
  · split_ifs
    · exact ⟨Nat.le_refl _, h⟩
    · exact ⟨Nat.le_max_left _ _, Nat.le_max_right _ _⟩
    · exact ⟨Nat.le_refl _, hless⟩
    · exact ⟨Nat.le_refl _, h⟩

theorem Scan.pushAll_bounds (octets : List UInt8) (h : s.depth ≤ s.deepest) :
    s.deepest ≤ (s.pushAll octets).deepest ∧
      (s.pushAll octets).depth ≤ (s.pushAll octets).deepest := by
  induction octets generalizing s with
  | nil => exact ⟨Nat.le_refl _, h⟩
  | cons b octets ih =>
    obtain ⟨hpush, hdepth⟩ := s.push_bounds b h
    obtain ⟨hrest, hend⟩ := ih (s.push b) hdepth
    exact ⟨Nat.le_trans hpush hrest, hend⟩

end Nesting

/-! ### Beside the reader -/

/-- How many are open after a token. -/
def Token.deepen (depth : Nat) : Token → Nat
  | .beginArray | .beginObject => depth + 1
  | .endArray | .endObject => depth - 1
  | _ => depth

theorem State.depth_pushValue {frames : List Frame} {t : Token} {s : State}
    (h : State.pushValue frames t = some s) : s.depth = Token.deepen frames.length t := by
  cases t <;> cases h <;> rfl

theorem State.depth_pushAfter {v : Tree} {frames : List Frame} {t : Token} {s : State}
    (h : State.pushAfter v frames t = some s) : s.depth = Token.deepen frames.length t := by
  unfold State.pushAfter at h
  split at h <;> cases h <;> rfl

theorem State.depth_push {s s' : State} {t : Token} (h : s.push t = some s') :
    s'.depth = Token.deepen s.depth t := by
  cases s with
  | value frames => exact State.depth_pushValue h
  | firstItem frames =>
    by_cases hend : t = .endArray
    · subst hend
      cases h
      rfl
    · rw [State.awaits_firstItem frames t hend] at h
      exact State.depth_pushValue h
  | firstName frames => cases t <;> cases h <;> rfl
  | nextName members frames =>
    cases t <;> cases h
    rfl
  | colon members name frames =>
    cases t <;> cases h
    rfl
  | after v frames => exact State.depth_pushAfter h

theorem State.depth_pushAll {s s' : State} {ts : List Token} (h : s.pushAll ts = some s') :
    s'.depth = ts.foldl Token.deepen s.depth := by
  induction ts generalizing s with
  | nil =>
    cases h
    rfl
  | cons t ts ih =>
    simp only [State.pushAll, List.foldlM_cons, Option.bind_eq_bind, Option.bind_eq_some_iff] at h
    obtain ⟨s₁, h₁, hrest⟩ := h
    rw [ih hrest, State.depth_push h₁, List.foldl_cons]

/-- Where a scan stands when a lexer stands somewhere. The digits of an escape, and what must be
there between two halves, are ordinary octets to it. -/
def Lexer.place : Lexer → Nesting.Place
  | .between | .word _ | .numeral _ => .outside
  | .text _ | .unit .. | .halfway .. => .inString
  | .escape _ | .halfwayEscape .. => .escaped

namespace Nesting

theorem not_mem_marks_of_isWordChar {c : Char} (h : isWordChar c) : c ∉ marks := by
  intro hmark
  have hall : ∀ d ∈ marks, isWordChar d = false := by simp [marks, isWordChar]
  rw [hall c hmark] at h
  cases h

theorem Scan.chars_punctuation {c : Char} {t : Token} (h : (c, t) ∈ punctuation)
    (depth deepest : Nat) : ∃ deepest', Scan.chars ⟨.outside, depth, deepest⟩ [c] =
      ⟨.outside, Token.deepen depth t, deepest'⟩ := by
  simp only [punctuation, List.mem_cons, List.not_mem_nil, or_false, Prod.mk.injEq] at h
  rcases h with ⟨hc, rfl⟩ | ⟨hc, rfl⟩ | ⟨hc, rfl⟩ | ⟨hc, rfl⟩ | ⟨rfl, rfl⟩ | ⟨rfl, rfl⟩
  · exact ⟨_, Scan.chars_open depth deepest (.inl hc)⟩
  · exact ⟨_, Scan.chars_close depth deepest (.inl hc)⟩
  · exact ⟨_, Scan.chars_open depth deepest (.inr hc)⟩
  · exact ⟨_, Scan.chars_close depth deepest (.inr hc)⟩
  · exact ⟨_, Scan.chars_comma depth deepest⟩
  · exact ⟨_, Scan.chars_colon depth deepest⟩

theorem Scan.chars_start {c : Char} {lexer : Lexer} {ts : List Token}
    (h : Lexer.start c = some (lexer, ts)) (depth deepest : Nat) :
    ∃ deepest', Scan.chars ⟨.outside, depth, deepest⟩ [c] =
      ⟨lexer.place, ts.foldl Token.deepen depth, deepest'⟩ := by
  cases Lexer.starts_of_start h with
  | blank hb => exact ⟨_, Scan.chars_blanks depth deepest (Blanks.nil.snoc hb)⟩
  | mark ht => exact Scan.chars_punctuation ht depth deepest
  | text hq =>
    subst hq
    exact ⟨_, Scan.chars_beginString depth deepest⟩
  | numeral hn =>
    refine ⟨_, Scan.chars_unmarked_char depth deepest (not_mem_marks_of_isNumeralChar ?_)⟩
    rcases hn with rfl | hdigit
    · rfl
    · exact isNumeralChar_of_isDigit hdigit
  | word hw => exact ⟨_, Scan.chars_unmarked_char depth deepest (not_mem_marks_of_isWordChar hw)⟩

theorem deepen_of_word? {w : List Char} {t : Token} (h : word? w = some t) (depth : Nat) :
    Token.deepen depth t = depth := by
  unfold word? at h
  split_ifs at h <;> cases h <;> rfl

theorem place_of_unitRead {read : List Char} {high : Option Nat} {code : Nat} {lexer : Lexer}
    (h : Lexer.unitRead read high code = some lexer) : lexer.place = .inString := by
  unfold Lexer.unitRead at h
  cases high <;> simp only at h <;> split_ifs at h <;> cases h <;> rfl

/-- **The scan goes along with the lexer**: a character takes it where the lexer goes, and then it
has open what the tokens say that were completed. -/
theorem Scan.chars_push {c : Char} {lexer lexer' : Lexer} {ts : List Token}
    (h : lexer.push c = some (lexer', ts)) (depth deepest : Nat) :
    ∃ deepest', Scan.chars ⟨lexer.place, depth, deepest⟩ [c] =
      ⟨lexer'.place, ts.foldl Token.deepen depth, deepest'⟩ := by
  cases lexer with
  | between => exact Scan.chars_start h depth deepest
  | word read =>
    simp only [Lexer.push] at h
    split at h
    · next hw =>
      cases h
      exact ⟨_, Scan.chars_unmarked_char depth deepest (not_mem_marks_of_isWordChar hw)⟩
    · simp only [Option.bind_eq_bind, Option.bind_eq_some_iff] at h
      obtain ⟨t, ht, ⟨next, tokens⟩, hstart, he⟩ := h
      cases he
      rw [List.foldl_cons, deepen_of_word? ht]
      exact Scan.chars_start hstart depth deepest
  | numeral read =>
    simp only [Lexer.push] at h
    split at h
    · next hn =>
      cases h
      exact ⟨_, Scan.chars_unmarked_char depth deepest (not_mem_marks_of_isNumeralChar hn)⟩
    · simp only [Option.bind_eq_bind, Option.bind_eq_some_iff] at h
      obtain ⟨n, -, ⟨next, tokens⟩, hstart, he⟩ := h
      cases he
      exact Scan.chars_start hstart depth deepest
  | text read =>
    simp only [Lexer.push] at h
    split at h
    · next hquote =>
      cases h
      subst hquote
      exact ⟨_, Scan.chars_endString depth deepest⟩
    split at h
    · next hback =>
      cases h
      subst hback
      exact ⟨_, Scan.chars_backslash depth deepest⟩
    split at h
    · cases h
    · next hquote hback _ =>
      cases h
      exact ⟨_, Scan.chars_plain depth deepest hquote hback⟩
  | escape read =>
    simp only [Lexer.push] at h
    split at h
    · next hu =>
      cases h
      subst hu
      exact ⟨_, Scan.chars_escaped depth deepest (by decide)⟩
    · simp only [Option.map_eq_some_iff, Prod.mk.injEq] at h
      obtain ⟨e, he, rfl, rfl⟩ := h
      have hlt := toNat_lt_of_shortEscape (escaped?_eq_some_iff.mp he)
      exact ⟨_, Scan.chars_escaped depth deepest hlt⟩
  | unit read high after code =>
    simp only [Lexer.push, Option.bind_eq_bind, Option.bind_eq_some_iff] at h
    obtain ⟨n, hn, h⟩ := h
    refine ⟨deepest, (Scan.chars_hexDigit depth deepest (hexValue?_eq_some_iff.mp hn)).trans ?_⟩
    cases after with
    | zero =>
      simp only [Option.map_eq_some_iff, Prod.mk.injEq] at h
      obtain ⟨_, hu, rfl, rfl⟩ := h
      rw [place_of_unitRead hu]
      rfl
    | succ k =>
      cases h
      rfl
  | halfway read high =>
    simp only [Lexer.push] at h
    split at h
    · next hback =>
      cases h
      subst hback
      exact ⟨_, Scan.chars_backslash depth deepest⟩
    · cases h
  | halfwayEscape read high =>
    simp only [Lexer.push] at h
    split at h
    · next hu =>
      cases h
      subst hu
      exact ⟨_, Scan.chars_escaped depth deepest (by decide)⟩
    · cases h

/-- The scan stands where the reader does, and has as much open. -/
structure Scan.Follows (s : Scan) (r : Reader) : Prop where
  place : s.place = r.lexer.place
  depth : s.depth = r.state.depth

theorem Scan.Follows.push {s : Scan} {r r' : Reader} {c : Char} (h : s.Follows r)
    (hp : r.push c = some r') : (s.chars [c]).Follows r' := by
  simp only [Reader.push, Option.bind_eq_bind, Option.bind_eq_some_iff] at hp
  obtain ⟨⟨lexer, tokens⟩, hlexer, state, hstate, hr⟩ := hp
  cases hr
  obtain ⟨deepest, hscan⟩ := Scan.chars_push hlexer s.depth s.deepest
  rw [← h.place] at hscan
  rw [hscan]
  exact ⟨rfl, by rw [State.depth_pushAll hstate, h.depth]⟩

/-- **The scan goes along with the reader** through a text, as far as the reader refuses nothing. -/
theorem Scan.Follows.pushAll {s : Scan} {r r' : Reader} {text : List Char} (h : s.Follows r)
    (hp : r.pushAll text = some r') : (s.chars text).Follows r' := by
  induction text generalizing s r with
  | nil =>
    cases hp
    exact h
  | cons c text ih =>
    simp only [Reader.pushAll, List.foldlM_cons, Option.bind_eq_bind, Option.bind_eq_some_iff] at hp
    obtain ⟨r₁, h₁, hp⟩ := hp
    rw [Scan.chars_cons]
    exact ih (h.push h₁) hp

end Nesting

/-- A reader never has more open than the whole text is deep. -/
theorem State.depth_le_nestingDepth {before after : List Char} {r : Reader}
    (h : Reader.pushAll {} before = some r) :
    r.state.depth ≤ nestingDepth (Utf8.encode (before ++ after)) := by
  have hfollows : (Nesting.Scan.chars {} before).Follows r :=
    Nesting.Scan.Follows.pushAll ⟨rfl, rfl⟩ h
  have hbefore := Nesting.Scan.pushAll_bounds {} (Utf8.encode before) (Nat.le_refl 0)
  have hafter := Nesting.Scan.pushAll_bounds _ (Utf8.encode after) hbefore.2
  rw [← hfollows.depth]
  show _ ≤ (Nesting.Scan.chars {} (before ++ after)).deepest
  rw [Nesting.Scan.chars_append]
  exact Nat.le_trans hbefore.2 hafter.1

/-- A reader refuses nothing that can still become a text of the grammar. -/
theorem Reader.exists_pushAll_of_isElement {before more : List Char} {t : Tree}
    (h : IsElement (before ++ more) t) : ∃ r, Reader.pushAll {} before = some r := by
  have hparse := Tree.parse?_eq_some_iff.mpr h
  simp only [Tree.parse?, Option.bind_eq_bind, Option.bind_eq_some_iff] at hparse
  obtain ⟨_, hall, -⟩ := hparse
  rw [Reader.pushAll_append, Option.bind_eq_some_iff] at hall
  obtain ⟨r, hr, -⟩ := hall
  exact ⟨r, hr⟩

theorem nestingDepth_encode_decodeLossy (body : List UInt8) :
    nestingDepth (Utf8.encode (Utf8.decodeLossy body)) = nestingDepth body := by
  unfold nestingDepth
  rw [Nesting.Scan.pushAll_eq_chars {} body]
  rfl

theorem nestingDepth_of_isElement {body : List UInt8} {t : Tree}
    (h : IsElement (Utf8.decodeLossy body) t) : nestingDepth body = t.nesting := by
  rw [← nestingDepth_encode_decodeLossy, nestingDepth_encode h]

theorem read_eq_tooDeep_iff {body : List UInt8} {depth : Nat} :
    read body = .error (.tooDeep depth) ↔ maxDepth < nestingDepth body ∧ depth = nestingDepth body := by
  unfold read
  by_cases hdepth : maxDepth < nestingDepth body
  · simp only [if_pos hdepth]
    constructor
    · intro h
      cases h
      exact ⟨hdepth, rfl⟩
    · intro h
      rw [h.2]
  · simp only [if_neg hdepth]
    refine iff_of_false (fun h => ?_) fun h => hdepth h.1
    split at h <;> cases h

/-- **The scan and the reader agree on structure.** A body's depth is that of its text, whatever had
to be replaced in it. As long as the reader of the text has refused nothing, and it refuses nothing
that can still become a text of the grammar, it has no more open than that. If the text is of the
grammar, the depth is the nesting of its tree, so that it is refused for its depth exactly when its
tree nests too deeply. -/
theorem nestingDepth_structural (body : List UInt8) :
    nestingDepth body = nestingDepth (Utf8.encode (Utf8.decodeLossy body)) ∧
      (∀ before after r, Utf8.decodeLossy body = before ++ after →
        Reader.pushAll {} before = some r → r.state.depth ≤ nestingDepth body) ∧
      (∀ before more t, IsElement (before ++ more) t → ∃ r, Reader.pushAll {} before = some r) ∧
      ∀ t, IsElement (Utf8.decodeLossy body) t → nestingDepth body = t.nesting ∧
        ((∃ depth, read body = .error (.tooDeep depth)) ↔ maxDepth < t.nesting) := by
  refine ⟨(nestingDepth_encode_decodeLossy body).symm, ?_,
    fun _ _ _ h => Reader.exists_pushAll_of_isElement h, ?_⟩
  · intro before after r htext hr
    rw [← nestingDepth_encode_decodeLossy, htext]
    exact State.depth_le_nestingDepth hr
  · intro t ht
    have hnesting := nestingDepth_of_isElement ht
    refine ⟨hnesting, ?_⟩
    rw [← hnesting]
    constructor
    · intro h
      obtain ⟨depth, hdepth⟩ := h
      exact (read_eq_tooDeep_iff.mp hdepth).1
    · exact fun h => ⟨_, read_eq_tooDeep_iff.mpr ⟨h, rfl⟩⟩

end HttpEcho.Json
