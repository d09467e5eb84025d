import HttpEcho.Http.Echo
import HttpEcho.Proofs.Base64
import HttpEcho.Proofs.Http.Body
import HttpEcho.Proofs.Json.Compact
import Mathlib.Data.List.DropRight

/-! Taking an echo apart.

The body of an answer is the dump of the headers and, after its last line feed, the transform of
the request body. `splitSegment`, `dumpLines` and `splitField` take it apart as a client would, by
looking for line feeds and for a colon and a blank; the main result, `respond_decodable`, says that
they find the parts that it was made of, whatever the headers and the body are. For this no part
may have a line feed of its own, and no name a colon. -/
namespace HttpEcho.Http

/-! ### Taking apart -/

/-- The octets that are inside a line. -/
def isInLine (b : UInt8) : Bool :=
  b != 0x0A

/-- The octets up to the last line feed, with it, and those after it. -/
def splitSegment (body : List UInt8) : List UInt8 × List UInt8 :=
  (body.rdropWhile isInLine, body.rtakeWhile isInLine)

/-- The lines of a dump, each of which a line feed ends. -/
def dumpLines (dump : List UInt8) : List (List UInt8) :=
  (dump.splitOn 0x0A).dropLast

/-- What stands before and after the first colon with a blank. -/
def splitField : List UInt8 → Option (List UInt8 × List UInt8)
  | [] => none
  | b :: rest =>
    if b = 0x3A ∧ rest.head? = some 0x20 then some ([], rest.tail)
    else (splitField rest).map fun (name, value) => (b :: name, value)

/-! ### Putting together -/

/-- The fields in the order of their lines. -/
def Headers.fields (h : Headers) : List (HeaderName × HeaderValue) :=
  h.groups.flatMap fun (name, values) => values.map (name, ·)

/-- A field as the dump shows it: its name in canonical case and its value as a text. -/
def shownField (f : HeaderName × HeaderValue) : List UInt8 × List UInt8 :=
  (Utf8.encode (canonicalCase f.1.text), Utf8.encode (Utf8.decodeLossy f.2.octets))

/-- The line of a field. -/
def fieldLine (f : HeaderName × HeaderValue) : List UInt8 :=
  (shownField f).1 ++ 0x3A :: 0x20 :: (shownField f).2

/-- The dump of fields. -/
def dumpOf (fields : List (HeaderName × HeaderValue)) : List UInt8 :=
  fields.flatMap fun f => fieldLine f ++ [0x0A]

theorem toList_writeField (f : HeaderName × HeaderValue) (out : Buffer) :
    (writeField f.1 f.2 out).toList = out.toList ++ (fieldLine f ++ [0x0A]) := by
  have hcolon : Utf8.encode [':', ' '] = [0x3A, 0x20] := by decide
  have hnewline : Utf8.encode ['\n'] = [0x0A] := by decide
  unfold writeField
  rw [Utf8.toList_text, Utf8.toList_text, Utf8.toList_text, Utf8.toList_text, hcolon, hnewline]
  simp [fieldLine, shownField]

theorem toList_write (h : Headers) (out : Buffer) :
    (h.write out).toList = out.toList ++ dumpOf h.fields := by
  have hvalues : ∀ (name : HeaderName) (values : List HeaderValue) (out : Buffer),
      (values.foldl (fun out value => writeField name value out) out).toList =
        out.toList ++ dumpOf (values.map (name, ·)) := by
    intro name values
    induction values with
    | nil => exact fun out => (List.append_nil _).symm
    | cons value values ih =>
      intro out
      rw [List.foldl_cons, ih, toList_writeField (name, value), List.append_assoc]
      rfl
  have hgroups : ∀ (groups : List (HeaderName × List HeaderValue)) (out : Buffer),
      (groups.foldl (fun out (name, values) =>
        values.foldl (fun out value => writeField name value out) out) out).toList =
          out.toList ++ dumpOf (groups.flatMap fun (name, values) => values.map (name, ·)) := by
    intro groups
    induction groups with
    | nil => exact fun out => (List.append_nil _).symm
    | cons g groups ih =>
      intro out
      obtain ⟨name, values⟩ := g
      rw [List.foldl_cons, ih, hvalues, List.append_assoc, List.flatMap_cons]
      unfold dumpOf
      rw [List.flatMap_append]
  exact hgroups h.groups out

theorem body_eq (e : Echo) (h : Headers) (octets : List UInt8) :
    e.body h octets = dumpOf h.fields ++ e.transform.apply octets := by
  unfold Echo.body
  rw [Buffer.toList_octets, toList_write]
  rfl

/-! ### No line feeds, and no colons -/

theorem isTokenChar_lt {c : Char} (h : isTokenChar c) : c.toNat < 128 := by
  rcases (Bool.or_eq_true _ _).mp h with h | h
  · have hz : ('Z'.val.toNat = 90 ∧ 'z'.val.toNat = 122) ∧ '9'.val.toNat = 57 := by decide
    have hc : c.toNat = c.val.toNat := rfl
    have hranges : ((decide ('A'.val ≤ c.val ∧ c.val ≤ 'Z'.val) ||
        'a'.val ≤ c.val && c.val ≤ 'z'.val) || '0'.val ≤ c.val && c.val ≤ '9'.val) = true := h
    simp only [Bool.or_eq_true, Bool.and_eq_true, decide_eq_true_eq, UInt32.le_iff_toNat_le]
      at hranges
    omega
  · have hall : "!#$%&'*+-.^_`|~".toList.all (fun d => d.toNat < 128) := by decide
    exact of_decide_eq_true (List.all_eq_true.mp hall c (List.contains_iff_mem.mp h))

/-- Neither case of a token's character breaks a name off. -/
theorem isTokenChar_case {c d : Char} (h : isTokenChar c) (hd : d = ':' ∨ d = '\n') :
    c.toUpper ≠ d ∧ c.toLower ≠ d := by
  have hall : ∀ n < 128, isTokenChar (Char.ofNat n) →
      ((Char.ofNat n).toUpper ≠ ':' ∧ (Char.ofNat n).toLower ≠ ':') ∧
        ((Char.ofNat n).toUpper ≠ '\n' ∧ (Char.ofNat n).toLower ≠ '\n') := by decide +kernel
  have hc := hall c.toNat (isTokenChar_lt h)
  rw [Char.ofNat_toNat] at hc
  rcases hd with rfl | rfl
  · exact (hc h).1
  · exact (hc h).2

theorem mem_canonicalCase {name : List Char} {x : Char} (h : x ∈ canonicalCase name) :
    ∃ c ∈ name, x = c.toUpper ∨ x = c.toLower := by
  unfold canonicalCase at h
  rw [← List.map_uncurry_zip_eq_zipWith] at h
  obtain ⟨⟨before, c⟩, hmem, rfl⟩ := List.mem_map.mp h
  refine ⟨c, (List.of_mem_zip hmem).2, ?_⟩
  by_cases hhyphen : before = '-'
  · exact Or.inl (if_pos hhyphen)
  · exact Or.inr (if_neg hhyphen)

theorem not_mem_shown_name (name : HeaderName) {d : Char} (hd : d = ':' ∨ d = '\n') :
    UInt8.ofNat d.toNat ∉ Utf8.encode (canonicalCase name.text) := by
  have hascii : d.toNat < 0x80 := by rcases hd with rfl | rfl <;> decide
  rw [Utf8.mem_encode_iff hascii]
  intro hmem
  obtain ⟨c, hc, hcase⟩ := mem_canonicalCase hmem
  have htoken : isToken name.text := ((Bool.and_eq_true _ _).mp name.isName).1
  have hchar := List.all_eq_true.mp ((Bool.and_eq_true _ _).mp htoken).2 c hc
  obtain ⟨hupper, hlower⟩ := isTokenChar_case hchar hd
  rcases hcase with he | he
  · exact hupper he.symm
  · exact hlower he.symm

theorem not_mem_shown_value (value : HeaderValue) :
    0x0A ∉ Utf8.encode (Utf8.decodeLossy value.octets) := by
  intro hmem
  have hchar := (Utf8.mem_encode_iff (c := '\n') (by decide)).mp hmem
  have hoctet := Utf8.octet_of_mem_decodeLossy hchar (by decide) (by decide)
  have hvalid := List.all_eq_true.mp value.valid _ hoctet
  exact absurd hvalid (by decide)

theorem not_mem_fieldLine (f : HeaderName × HeaderValue) : 0x0A ∉ fieldLine f := by
  intro hmem
  rcases List.mem_append.mp hmem with hmem | hmem
  · exact not_mem_shown_name f.1 (Or.inr rfl) hmem
  · rcases List.mem_cons.mp hmem with he | hmem
    · exact absurd he (by decide)
    rcases List.mem_cons.mp hmem with he | hmem
    · exact absurd he (by decide)
    · exact not_mem_shown_value f.2 hmem

/-- What a body becomes is a text of one line, without its end. -/
theorem exists_apply_eq (t : Transform) (octets : List UInt8) :
    ∃ text, t.apply octets = Utf8.encode text ∧ '\n' ∉ text := by
  have hjson : ∀ v : Json.Value, ∃ text, v.encode = Utf8.encode text ∧ '\n' ∉ text := by
    refine fun v => ⟨v.chars, Json.encode_eq v, fun hmem => ?_⟩
    exact absurd (v.printable_chars '\n' hmem) (by decide)
  cases t with
  | json delay =>
    show ∃ text, Json.normalize octets = Utf8.encode text ∧ '\n' ∉ text
    unfold Json.normalize
    cases Json.read octets with
    | ok v => exact hjson v
    | error r => exact hjson .null
  | base64 => exact ⟨Base64.encode octets, rfl, Base64.newline_not_mem_encode octets⟩

theorem not_mem_apply (t : Transform) (octets : List UInt8) : 0x0A ∉ t.apply octets := by
  obtain ⟨text, htext, hline⟩ := exists_apply_eq t octets
  rw [htext]
  exact fun hmem => hline ((Utf8.mem_encode_iff (c := '\n') (by decide)).mp hmem)

/-! ### The parts are found -/

theorem dumpOf_cons (f : HeaderName × HeaderValue) (fields : List (HeaderName × HeaderValue)) :
    dumpOf (f :: fields) = fieldLine f ++ 0x0A :: dumpOf fields := by
  unfold dumpOf
  rw [List.flatMap_cons, List.append_assoc]
  rfl

theorem splitOn_dumpOf (fields : List (HeaderName × HeaderValue)) :
    (dumpOf fields).splitOn 0x0A = fields.map fieldLine ++ [[]] := by
  induction fields with
  | nil => rfl
  | cons f fields ih =>
    rw [dumpOf_cons, List.splitOn_append_cons_self_of_not_mem (not_mem_fieldLine f), ih]
    rfl

theorem dumpLines_dumpOf (fields : List (HeaderName × HeaderValue)) :
    dumpLines (dumpOf fields) = fields.map fieldLine := by
  unfold dumpLines
  rw [splitOn_dumpOf, List.dropLast_concat]

theorem mem_dumpOf_iff {fields : List (HeaderName × HeaderValue)} :
    0x0A ∈ dumpOf fields ↔ fields ≠ [] := by
  cases fields with
  | nil => simp [dumpOf]
  | cons f fields => simp [dumpOf_cons]

theorem dumpOf_ends (fields : List (HeaderName × HeaderValue)) :
    (dumpOf fields).rdropWhile isInLine = dumpOf fields ∧
      (dumpOf fields).rtakeWhile isInLine = [] := by
  induction fields using List.reverseRecOn with
  | nil => exact ⟨rfl, rfl⟩
  | append_singleton before f =>
    have hlast : dumpOf (before ++ [f]) = (dumpOf before ++ fieldLine f) ++ [0x0A] := by
      simp [dumpOf]
    rw [hlast]
    exact ⟨List.rdropWhile_concat_neg _ _ _ (by decide),
      List.rtakeWhile_concat_neg _ _ _ (by decide)⟩

theorem splitSegment_append (fields : List (HeaderName × HeaderValue)) {output : List UInt8}
    (h : 0x0A ∉ output) : splitSegment (dumpOf fields ++ output) = (dumpOf fields, output) := by
  unfold splitSegment
  induction output using List.reverseRecOn with
  | nil =>
    obtain ⟨hdrop, htake⟩ := dumpOf_ends fields
    rw [List.append_nil, hdrop, htake]
  | append_singleton output b ih =>
    have hoctet : isInLine b := by
      refine bne_iff_ne.mpr fun he => h ?_
      rw [he]
      exact List.mem_append_right _ (List.mem_singleton_self _)
    have hrest := ih fun hmem => h (List.mem_append_left _ hmem)
    rw [← List.append_assoc, List.rdropWhile_concat_pos _ _ _ hoctet,
      List.rtakeWhile_concat_pos _ _ _ hoctet, (Prod.mk.inj hrest).1, (Prod.mk.inj hrest).2]

theorem splitField_append {name : List UInt8} (h : 0x3A ∉ name) (value : List UInt8) :
    splitField (name ++ 0x3A :: 0x20 :: value) = some (name, value) := by
  induction name with
  | nil => rfl
  | cons b name ih =>
    have hoctet : ¬ (b = 0x3A ∧ (name ++ 0x3A :: 0x20 :: value).head? = some 0x20) := by
      intro hcolon
      obtain ⟨rfl, -⟩ := hcolon
      exact h List.mem_cons_self
    rw [List.cons_append, splitField, if_neg hoctet, ih fun hmem => h (List.mem_cons_of_mem _ hmem)]
    rfl

theorem splitField_fieldLine (f : HeaderName × HeaderValue) :
    splitField (fieldLine f) = some (shownField f) :=
  splitField_append (not_mem_shown_name f.1 (Or.inl rfl)) _

theorem respond_body (e : Echo) (h : Headers) (b : Body) : (e.respond h b).body =
    dumpOf h.fields ++ e.transform.apply (b.octets e.maxBodyBytes) :=
  body_eq e h _

theorem splitSegment_respond (e : Echo) (h : Headers) (b : Body) :
    splitSegment (e.respond h b).body =
      (dumpOf h.fields, e.transform.apply (b.octets e.maxBodyBytes)) := by
  rw [respond_body]
  exact splitSegment_append h.fields (not_mem_apply _ _)

theorem newline_not_mem_respond (e : Echo) (h : Headers) (b : Body) :
    0x0A ∉ (e.respond h b).body ↔ h.fields = [] := by
  rw [respond_body, List.mem_append, not_or, mem_dumpOf_iff, not_not]
  exact and_iff_left (not_mem_apply _ _)

theorem map_splitField_dumpOf (fields : List (HeaderName × HeaderValue)) :
    (dumpLines (dumpOf fields)).map splitField = fields.map fun f => some (shownField f) := by
  rw [dumpLines_dumpOf, List.map_map]
  exact List.map_congr_left fun f _ => splitField_fieldLine f

/-- The request body, from the segment of a base64 echo. -/
theorem decode_apply_base64 {b : Body} {limit : Nat} (hfailure : b.failure = none)
    (hlength : b.chunks.flatten.length ≤ limit) :
    (Utf8.decode? (Transform.base64.apply (b.octets limit))).bind Base64.decode? =
      some b.chunks.flatten := by
  have hread := Body.read_eq_ok_iff.mpr ⟨hfailure, hlength, rfl⟩
  have hoctets : b.octets limit = b.chunks.flatten := by
    unfold Body.octets
    rw [hread]
  rw [hoctets]
  show (Utf8.decode? (Utf8.encode (Base64.encode b.chunks.flatten))).bind Base64.decode? = _
  rw [Utf8.decode?_encode, Option.bind_some, Base64.decode?_encode]

/-- **An echo is taken apart into what it was made of**: split after its last line feed, an answer's
body is the dump of the headers and what the request body became. There is no line feed just when
there is no field. The lines of the dump, split at their first colon and blank, are the names and
values as they are shown, one for each field, in order. From a base64 echo the request body is
decoded, if it was read. So two answers with the same body show the same fields and the same
output: neither a value nor a body can make up a line. -/
theorem respond_decodable (e : Echo) (h : Headers) (b : Body) :
    splitSegment (e.respond h b).body =
        ((h.write #[]).toList, e.transform.apply (b.octets e.maxBodyBytes)) ∧
      (0x0A ∉ (e.respond h b).body ↔ h.fields = []) ∧
      (dumpLines (h.write #[]).toList).map splitField =
        h.fields.map (fun f => some (shownField f)) ∧
      (e.transform = .base64 → b.failure = none → b.chunks.flatten.length ≤ e.maxBodyBytes →
        (Utf8.decode? (splitSegment (e.respond h b).body).2).bind Base64.decode? =
          some b.chunks.flatten) ∧
      ∀ (e' : Echo) (h' : Headers) (b' : Body), (e'.respond h' b').body = (e.respond h b).body →
        h'.fields.map shownField = h.fields.map shownField ∧
          e'.transform.apply (b'.octets e'.maxBodyBytes) =
            e.transform.apply (b.octets e.maxBodyBytes) := by
  have hdump : (h.write #[]).toList = dumpOf h.fields := toList_write h #[]
  have hsplit := splitSegment_respond e h b
  refine ⟨?_, newline_not_mem_respond e h b, ?_, ?_, ?_⟩
  · rw [hsplit, hdump]
  · rw [hdump, map_splitField_dumpOf]
  · intro hbase64 hfailure hlength
    rw [hsplit, hbase64]
    exact decode_apply_base64 hfailure hlength
  · intro e' h' b' hsame
    have hsplit' := splitSegment_respond e' h' b'
    rw [hsame, hsplit] at hsplit'
    obtain ⟨hdumps, houtputs⟩ := Prod.mk.inj hsplit'
    have hfields := map_splitField_dumpOf h.fields
    rw [hdumps, map_splitField_dumpOf] at hfields
    refine ⟨?_, houtputs.symm⟩
    apply List.map_injective_iff.mpr (Option.some_injective _)
    rw [List.map_map, List.map_map]
    exact hfields

end HttpEcho.Http
