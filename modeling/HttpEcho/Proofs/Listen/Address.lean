import HttpEcho.Listen.Bind
import HttpEcho.Proofs.Number.Unsigned
import HttpEcho.Proofs.Text.Blank

/-! Which texts are addresses.

`Address.Denotes` is the grammar with its meaning: behind the last colon of a text stands a port,
and before it the name of a host, or nothing. `parse_grammar` is that this is what is read, once the
blanks around a text are taken off. An address that was read is read from its written form again
(`parse_own_text`), which says that no host's name runs into the colon, and that the written form of
a port is a port. It is not always the text that it was read from: a plus before the port is lost,
and so are zeros, and nothing else is (`text_eq_iff_shortest`). -/
namespace HttpEcho.Listen

open Text (AllBlank Bare Trims trim)

/-! ### The last colon -/

/-- A text parted at its last colon. -/
structure LastColon (text before after : List Char) : Prop where
  parted : text = before ++ ':' :: after
  last : ':' ∉ after

theorem splitLastColon_eq_some_iff {text before after : List Char} :
    splitLastColon text = some (before, after) ↔ LastColon text before after := by
  constructor
  · intro h
    have hparts := List.takeWhile_append_dropWhile (p := (· != ':')) (l := text.reverse)
    unfold splitLastColon at h
    split at h
    · cases h
    · next c rest hrest =>
      cases h
      -- The walk from the end stops at a colon, and passes none.
      have hcolon : c = ':' := by
        have hhead := List.head?_dropWhile_not (· != ':') text.reverse
        rw [hrest] at hhead
        simpa using hhead
      subst hcolon
      rw [hrest] at hparts
      refine ⟨?_, fun hmem => ?_⟩
      · refine List.reverse_inj.mp ?_
        simpa using hparts.symm
      · have hafter := List.mem_takeWhile_imp (List.mem_reverse.mp hmem)
        simp at hafter
  · rintro ⟨rfl, hlast⟩
    have hafter : ∀ c ∈ after.reverse, (c != ':') = true := fun c hc =>
      bne_iff_ne.mpr fun hcolon => hlast (hcolon ▸ List.mem_reverse.mp hc)
    have hreverse : (before ++ ':' :: after).reverse = after.reverse ++ ':' :: before.reverse := by
      simp
    unfold splitLastColon
    rw [hreverse, List.takeWhile_append_of_pos hafter, List.dropWhile_append_of_pos hafter,
      List.dropWhile_cons_of_neg (by decide), List.takeWhile_cons_of_neg (by decide)]
    simp

/-! ### The grammar -/

/-- A text is an address. -/
inductive Address.Denotes (text : List Char) : Address → Prop
  | allInterfaces {digits port} : LastColon text [] digits →
      Unsigned.Denotes digits port.toNat → Denotes text (.allInterfaces port)
  | host {name digits port} : LastColon text name digits → name ≠ [] →
      Unsigned.Denotes digits port.toNat → Denotes text (.host name port)

theorem port?_eq_some_iff {text : List Char} {port : UInt16} :
    port? text = some port ↔ Unsigned.Denotes text port.toNat := by
  have hmax : port.toNat ≤ 65535 := Nat.le_of_lt_succ port.toNat_lt
  unfold port?
  constructor
  · intro h
    split at h
    · next n hn =>
      cases h
      obtain ⟨hdenotes, hle⟩ := Unsigned.parse_eq_ok_iff.mp hn
      rwa [UInt16.toNat_ofNat_of_lt' (Nat.lt_succ_of_le hle)]
    · cases h
  · intro h
    rw [Unsigned.parse_eq_ok_iff.mpr ⟨h, hmax⟩]
    exact congrArg some UInt16.ofNat_toNat

theorem isBlank_of_isDigit {c : Char} (h : c.isDigit = true) : Text.isBlank c = false := by
  obtain ⟨hlower, hupper⟩ := Unsigned.toNat_of_isDigit h
  simp only [Text.isBlank, Bool.or_eq_false_iff, Bool.and_eq_false_iff, decide_eq_false_iff_not]
  omega

variable {text : List Char} {raw : String} {a : Address}

namespace Address

theorem ofText?_eq_some_iff : ofText? raw = some a ↔ Denotes (trim raw.toList) a := by
  simp only [ofText?, Option.bind_eq_bind, Option.bind_eq_some_iff, Option.pure_def,
    Option.some_inj, Prod.exists, splitLastColon_eq_some_iff, port?_eq_some_iff]
  constructor
  · rintro ⟨before, digits, hcolon, port, hport, rfl⟩
    cases before with
    | nil => exact .allInterfaces hcolon hport
    | cons c rest => exact .host hcolon (List.cons_ne_nil _ _) hport
  · intro h
    cases h with
    | allInterfaces hcolon hport => exact ⟨_, _, hcolon, _, hport, rfl⟩
    | host hcolon hname hport =>
      exact ⟨_, _, hcolon, _, hport, if_neg (by simpa using hname)⟩

theorem parse_eq_ok_iff_denotes : parse raw = .ok a ↔ Denotes (trim raw.toList) a := by
  rw [← ofText?_eq_some_iff, parse]
  cases ofText? raw <;> simp

theorem parse_eq_error_iff {e : ListenError} :
    parse raw = .error e ↔ e = .invalidAddress raw ∧ ∀ a, ¬ Denotes (trim raw.toList) a := by
  simp only [← ofText?_eq_some_iff, parse]
  cases ofText? raw <;> simp [eq_comm]

/-- A text is an address when behind its last colon stands a number that is not too large. -/
theorem exists_denotes_iff : (∃ a, Denotes text a) ↔
    ∃ before digits n, LastColon text before digits ∧ Unsigned.Denotes digits n ∧ n ≤ 65535 := by
  constructor
  · rintro ⟨a, h⟩
    cases h with
    | @allInterfaces digits port hcolon hport =>
      exact ⟨_, _, _, hcolon, hport, Nat.le_of_lt_succ port.toNat_lt⟩
    | @host name digits port hcolon _ hport =>
      exact ⟨_, _, _, hcolon, hport, Nat.le_of_lt_succ port.toNat_lt⟩
  · rintro ⟨before, digits, n, hcolon, hport, hmax⟩
    have hn : (UInt16.ofNat n).toNat = n := UInt16.toNat_ofNat_of_lt' (Nat.lt_succ_of_le hmax)
    rw [← hn] at hport
    cases before with
    | nil => exact ⟨_, .allInterfaces hcolon hport⟩
    | cons c rest => exact ⟨_, .host hcolon (List.cons_ne_nil _ _) hport⟩

/-- **Which texts are addresses.** Without the blanks around it, a text is an address exactly when
behind its last colon stands a port: digits, after a plus or none, of a number up to 65535. It is
every interface at that port when nothing stands before the colon, and otherwise the host whose name
is all that does. Any other text is refused, and the error has the text as it was given. -/
theorem parse_grammar (raw : String) :
    (∀ a, parse raw = .ok a ↔ ∃ core, Trims raw.toList core ∧ Denotes core a) ∧
    (∀ e, parse raw = .error e ↔ e = .invalidAddress raw ∧
      ∀ core before digits n, Trims raw.toList core → LastColon core before digits →
        Unsigned.Denotes digits n → 65535 < n) := by
  refine ⟨fun a => ?_, fun e => ?_⟩
  · rw [parse_eq_ok_iff_denotes]
    constructor
    · exact fun h => ⟨_, Text.trims_trim _, h⟩
    · rintro ⟨core, hcore, h⟩
      rwa [Text.trim_of_trims hcore]
  · rw [parse_eq_error_iff, ← not_exists, exists_denotes_iff]
    refine and_congr_right fun _ => ⟨?_, ?_⟩
    · intro h core before digits n hcore hcolon hport
      rw [← Text.trim_of_trims hcore] at hcolon
      exact Nat.lt_of_not_le fun hmax => h ⟨before, digits, n, hcolon, hport, hmax⟩
    · rintro h ⟨before, digits, n, hcolon, hport, hmax⟩
      exact absurd (h _ _ _ _ (Text.trims_trim _) hcolon hport) (Nat.not_lt_of_le hmax)

/-! ### The written form -/

/-- What stands before the last colon of an address. -/
def name : Address → List Char
  | .allInterfaces _ => []
  | .host name _ => name

/-- The port of an address. -/
def port : Address → UInt16
  | .allInterfaces port => port
  | .host _ port => port

theorem toList_text (a : Address) :
    a.text.toList = a.name ++ ':' :: Nat.toDigits 10 a.port.toNat := by
  cases a <;> simp [text, name, port, Nat.repr]

theorem Denotes.lastColon (h : Denotes text a) :
    ∃ digits, LastColon text a.name digits ∧ Unsigned.Denotes digits a.port.toNat := by
  cases h with
  | allInterfaces hcolon hport => exact ⟨_, hcolon, hport⟩
  | host hcolon _ hport => exact ⟨_, hcolon, hport⟩

/-- The written form of an address is one way to write it. -/
theorem Denotes.toList_text (h : Denotes text a) : Denotes a.text.toList a := by
  have hdecimal := Unsigned.isDecimal_toDigits a.port.toNat
  have hcolon : LastColon a.text.toList a.name (Nat.toDigits 10 a.port.toNat) :=
    ⟨a.toList_text, fun hmem => absurd (hdecimal.isDigit _ hmem) (by decide)⟩
  cases h with
  | allInterfaces => exact .allInterfaces hcolon (.plain hdecimal)
  | host _ hname => exact .host hcolon hname (.plain hdecimal)

/-- The written form begins like the text, and ends with a digit. -/
theorem Denotes.bare_text (h : Denotes text a) (htext : Bare text) : Bare a.text.toList := by
  obtain ⟨digits, ⟨rfl, -⟩, -⟩ := h.lastColon
  have hdecimal := Unsigned.isDecimal_toDigits a.port.toNat
  refine ⟨fun c hc => htext.first c ?_, fun c hc => ?_⟩
  · rw [a.toList_text] at hc
    rw [List.head?_append] at hc ⊢
    exact hc
  · obtain ⟨d, hd⟩ := Option.isSome_iff_exists.mp (List.getLast?_isSome.mpr hdecimal.nonempty)
    rw [a.toList_text, List.append_cons, List.getLast?_append, hd] at hc
    cases hc
    exact isBlank_of_isDigit (hdecimal.isDigit _ (List.mem_of_getLast? hd))

/-- Blanks around a text make no difference to what it is. -/
theorem parse_surrounded {before after : String} (hbefore : AllBlank before.toList)
    (hafter : AllBlank after.toList) :
    parse (before ++ raw ++ after) = .ok a ↔ parse raw = .ok a := by
  rw [parse_eq_ok_iff_denotes, parse_eq_ok_iff_denotes, String.toList_append, String.toList_append,
    Text.trim_surrounded hbefore hafter]

theorem parse_text_of_parse (h : parse raw = .ok a) : parse a.text = .ok a := by
  rw [parse_eq_ok_iff_denotes] at h ⊢
  have hbare := Text.Trims.bare (Text.trims_trim raw.toList)
  rw [Text.trim_eq_self (h.bare_text hbare)]
  exact h.toList_text

/-- **An address is read again from its written form**, whatever blanks are put around that, or
around the text that it was read from. So addresses that were read are the same exactly when their
written forms are. -/
theorem parse_own_text (h : parse raw = .ok a) :
    (∀ before after : String, AllBlank before.toList → AllBlank after.toList →
      parse (before ++ a.text ++ after) = .ok a ∧ parse (before ++ raw ++ after) = .ok a) ∧
    ∀ other b, parse other = .ok b → (a = b ↔ a.text = b.text) := by
  have hagain := parse_text_of_parse h
  refine ⟨fun before after hbefore hafter => ?_, fun other b hother => ?_⟩
  · exact ⟨(parse_surrounded hbefore hafter).mpr hagain, (parse_surrounded hbefore hafter).mpr h⟩
  · refine ⟨congrArg text, fun htext => ?_⟩
    rw [htext, parse_text_of_parse hother] at hagain
    exact (Except.ok.inj hagain).symm

/-- The name of a host may be a colon, which does not make it every interface. -/
theorem parse_own_text_colon :
    parse " ::+080" = .ok (host [':'] 80) ∧ parse ("\t" ++ "::80" ++ " ") = .ok (host [':'] 80) ∧
      (host [':'] 80 = allInterfaces 80 ↔ "::80" = ":80") := by
  have h : parse " ::+080" = .ok (host [':'] 80) := by decide
  obtain ⟨hblanks, hsame⟩ := parse_own_text h
  exact ⟨h, (hblanks "\t" " " (by decide) (by decide)).1, hsame ":80" _ (by decide)⟩

/-- **What is kept of a host's address.** Its name is kept as it was written. The whole text is,
without the blanks around it, exactly when no plus stands before the port and no zero before its
other digits; otherwise the port is written anew. -/
theorem text_eq_iff_shortest {name : List Char} {port : UInt16}
    (h : parse raw = .ok (.host name port)) :
    ∃ core digits, Trims raw.toList core ∧ LastColon core name digits ∧
      Unsigned.Denotes digits port.toNat ∧
      (host name port).text = String.ofList (name ++ ':' :: Nat.toDigits 10 port.toNat) ∧
      ((host name port).text = String.ofList core ↔
        digits.head? ≠ some '+' ∧ (digits.head? = some '0' → digits = ['0'])) := by
  rw [parse_eq_ok_iff_denotes] at h
  obtain ⟨digits, hcolon, hport⟩ := h.lastColon
  have hwritten : (host name port).text =
      String.ofList (name ++ ':' :: Nat.toDigits 10 port.toNat) := by
    rw [← String.toList_inj, String.toList_ofList]
    exact toList_text _
  refine ⟨_, digits, Text.trims_trim _, hcolon, hport, hwritten, ?_⟩
  rw [hwritten, hcolon.parted, String.ofList_inj]
  show name ++ _ = name ++ _ ↔ _
  rw [List.append_cancel_left_eq, List.cons_inj_right, eq_comm]
  exact hport.eq_toDigits_iff

/-- A plus before the port is not kept. -/
theorem text_ne_written_plus :
    parse "localhost:+80" = .ok (host "localhost".toList 80) ∧
      (host "localhost".toList 80).text ≠ "localhost:+80" := by
  have h : parse "localhost:+80" = .ok (host "localhost".toList 80) := by decide
  obtain ⟨core, digits, htrims, hcolon, -, -, hkept⟩ := text_eq_iff_shortest h
  have hcore : core = "localhost:+80".toList := by
    rw [← Text.trim_of_trims htrims]
    decide
  have hdigits : '+' :: ['8', '0'] = digits := by
    have hparted : "localhost".toList ++ ':' :: '+' :: ['8', '0'] =
        "localhost".toList ++ ':' :: digits := by
      rw [← hcolon.parted, hcore]
      decide
    exact List.tail_eq_of_cons_eq (List.append_cancel_left hparted)
  refine ⟨h, fun hsame => (hkept.mp ?_).1 (hdigits ▸ rfl)⟩
  rw [hsame, hcore, String.ofList_toList]

end Address

end HttpEcho.Listen
