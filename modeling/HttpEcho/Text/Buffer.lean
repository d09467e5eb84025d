/-! A buffer of octets that is written at its end. -/
namespace HttpEcho

/-- Octets written so far. -/
abbrev Buffer := Array UInt8

namespace Buffer

/-- Appends octets. -/
def octets (out : Buffer) (more : List UInt8) : Buffer :=
  more.foldl Array.push out

/-- Appends characters. -/
def text (out : Buffer) (more : List Char) : Buffer :=
  more.foldl (fun out c => out.octets (String.utf8EncodeChar c)) out

@[simp] theorem toList_octets (out : Buffer) (more : List UInt8) :
    (out.octets more).toList = out.toList ++ more := by
  simp [octets]

@[simp] theorem toList_text (out : Buffer) (more : List Char) :
    (out.text more).toList = out.toList ++ more.flatMap String.utf8EncodeChar := by
  induction more generalizing out with
  | nil => simp [text]
  | cons c rest ih =>
    have h := ih (out.octets (String.utf8EncodeChar c))
    simp only [text, List.foldl_cons] at h ⊢
    simp [h]

end Buffer

end HttpEcho
