import HttpEcho.Http.Router
import HttpEcho.Proofs.Http.Dump
import HttpEcho.Proofs.Text.WellFormed

/-! Answers are texts.

An answer says that it is a plain text in UTF-8, and `respond_wellFormed` says that it is one. It is
put together from pieces that are encoded one by one, a header value among them as soon as its line
is written, so no character is ever begun in one piece and ended in another. A value that is
well-formed stands in the answer as it came. -/
namespace HttpEcho.Http
open Utf8 (WellFormed)

/-! ### Pieces -/

theorem wellFormed_fieldLine (f : HeaderName × HeaderValue) : WellFormed (fieldLine f) := by
  have hcolon : WellFormed [0x3A, 0x20] := Utf8.wellFormed_encode [':', ' ']
  exact (Utf8.wellFormed_encode _).append (hcolon.append (Utf8.wellFormed_encode _))

theorem wellFormed_dumpOf (fields : List (HeaderName × HeaderValue)) :
    WellFormed (dumpOf fields) := by
  induction fields with
  | nil => exact .nil
  | cons f fields ih =>
    have hnewline : WellFormed [0x0A] := Utf8.wellFormed_encode ['\n']
    rw [dumpOf_cons]
    exact (wellFormed_fieldLine f).append (hnewline.append ih)

theorem wellFormed_apply (t : Transform) (octets : List UInt8) : WellFormed (t.apply octets) := by
  obtain ⟨text, htext, -⟩ := exists_apply_eq t octets
  rw [htext]
  exact Utf8.wellFormed_encode text

/-! ### Answers -/

theorem wellFormed_respond (e : Echo) (h : Headers) (b : Body) :
    WellFormed (e.respond h b).body := by
  rw [respond_body]
  exact (wellFormed_dumpOf _).append (wellFormed_apply _ _)

theorem wellFormed_toReply {r : Response} (h : WellFormed r.body) (m : Method) :
    WellFormed (r.toReply m).body := by
  unfold Response.toReply
  split
  · exact .nil
  · show WellFormed (if m.is "HEAD" then [] else r.body)
    split
    · exact .nil
    · exact h

theorem wellFormed_reply (e : Echo) (r : Request) : WellFormed (e.reply r).body := by
  refine wellFormed_toReply ?_ r.method
  unfold Echo.dispatch
  cases r.route with
  | echo => exact wellFormed_respond e r.headers r.body
  | notFound => exact .nil

theorem dumpOf_append (a b : List (HeaderName × HeaderValue)) :
    dumpOf (a ++ b) = dumpOf a ++ dumpOf b :=
  List.flatMap_append

/-- The line of a field in the answer, between the lines before it and what comes after it. -/
theorem respond_body_split (e : Echo) {h : Headers} (b : Body)
    {before after : List (HeaderName × HeaderValue)} {f : HeaderName × HeaderValue}
    (hfields : h.fields = before ++ f :: after) :
    (e.respond h b).body = dumpOf before ++ (fieldLine f ++ [0x0A]) ++
      (dumpOf after ++ e.transform.apply (b.octets e.maxBodyBytes)) := by
  rw [respond_body, hfields, dumpOf_append, dumpOf_cons]
  simp

/-- **Every answer is the text in UTF-8 that it says it is**, whatever octets the headers and the
body are of, and so is the reply that any request is sent. Each field's line stands in the answer in
its place, with characters that are whole in it, and its value stands there octet for octet just
when it is well-formed. -/
theorem respond_wellFormed (e : Echo) (h : Headers) (b : Body) :
    (e.respond h b).contentType = some "text/plain; charset=utf-8" ∧
    WellFormed (e.respond h b).body ∧
    (∀ before f after, h.fields = before ++ f :: after →
      let shown := Utf8.encode (Utf8.decodeLossy f.2.octets)
      (e.respond h b).body =
        dumpOf before ++
          (Utf8.encode (canonicalCase f.1.text) ++ [0x3A, 0x20] ++ shown ++ [0x0A]) ++
          (dumpOf after ++ e.transform.apply (b.octets e.maxBodyBytes)) ∧
      WellFormed (dumpOf before) ∧ WellFormed shown ∧
      (shown = f.2.octets ↔ WellFormed f.2.octets)) ∧
    (∀ r : Request, WellFormed (e.reply r).body) := by
  refine ⟨rfl, wellFormed_respond e h b, ?_, wellFormed_reply e⟩
  intro before f after hfields shown
  refine ⟨?_, wellFormed_dumpOf before, Utf8.wellFormed_encode _, Utf8.encode_decodeLossy_eq_iff⟩
  rw [respond_body_split e b hfields]
  simp [fieldLine, shownField, shown]

-- The two octets of one character in two values: neither value is a text, the answer is.
example :
    (⟨.base64, 0⟩ : Echo).body
      ⟨[(⟨['a'], by decide⟩, [⟨[0xC3], by decide⟩, ⟨[0xA9], by decide⟩])]⟩ [] =
    Utf8.encode "A: \uFFFD\nA: \uFFFD\n".toList := by decide

end HttpEcho.Http
