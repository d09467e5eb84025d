/-! UTF-8, octet by octet.

A `Decoder` takes octets one at a time and gives characters. What is no character gives one
U+FFFD for each longest run of octets that begins one, so every octet sequence has a text
(`decodeLossy`); the text is exact when nothing had to be replaced (`decode?`). `encode` is
the other direction. -/
namespace HttpEcho.Utf8

/-- The octets of a text. -/
def encode (text : List Char) : List UInt8 :=
  text.flatMap String.utf8EncodeChar

/-- What stands for octets that are no character. -/
def replacement : Char := '\uFFFD'

/-! ### One octet -/

/-- A character whose first octets were read: the bits so far, the octets its next one may be,
and how many follow after that. -/
structure Pending where
  bits : Nat
  low : UInt8
  high : UInt8
  after : Nat
  deriving DecidableEq, Repr

/-- What an octet can begin. -/
inductive Lead where
  | character (c : Char)
  | opening (p : Pending)
  | stray

/-- The first octet of a character. The narrowed second octets keep out overlong forms (E0, F0),
surrogates (ED) and what lies beyond the last character (F4). -/
def Lead.ofOctet (b : UInt8) : Lead :=
  if b < 0x80 then .character (Char.ofNat b.toNat)
  else if b < 0xC2 then .stray
  else if b < 0xE0 then .opening ⟨b.toNat - 0xC0, 0x80, 0xBF, 0⟩
  else if b = 0xE0 then .opening ⟨0, 0xA0, 0xBF, 1⟩
  else if b = 0xED then .opening ⟨0xD, 0x80, 0x9F, 1⟩
  else if b < 0xF0 then .opening ⟨b.toNat - 0xE0, 0x80, 0xBF, 1⟩
  else if b = 0xF0 then .opening ⟨0, 0x90, 0xBF, 2⟩
  else if b < 0xF4 then .opening ⟨b.toNat - 0xF0, 0x80, 0xBF, 2⟩
  else if b = 0xF4 then .opening ⟨4, 0x80, 0x8F, 2⟩
  else .stray

/-! ### The decoder -/

/-- A decoder between two octets. -/
structure Decoder where
  /-- The character that is being read, if one was begun. -/
  pending : Option Pending := none
  /-- The characters so far, the last one first. -/
  text : List Char := []
  /-- Nothing has been replaced. -/
  exact : Bool := true

/-- Gives up what was begun. -/
def Decoder.replace (d : Decoder) : Decoder :=
  ⟨none, replacement :: d.text, false⟩

/-- Takes an octet that begins a character, or none. -/
def Decoder.begin (d : Decoder) (b : UInt8) : Decoder :=
  match Lead.ofOctet b with
  | .character c => ⟨none, c :: d.text, d.exact⟩
  | .opening p => ⟨some p, d.text, d.exact⟩
  | .stray => d.replace

/-- Takes the next octet. One that does not continue what was begun begins anew. -/
def Decoder.push (d : Decoder) (b : UInt8) : Decoder :=
  match d.pending with
  | none => d.begin b
  | some p =>
    if p.low ≤ b ∧ b ≤ p.high then
      let bits := p.bits * 64 + (b.toNat - 0x80)
      match p.after with
      | 0 => ⟨none, Char.ofNat bits :: d.text, d.exact⟩
      | n + 1 => ⟨some ⟨bits, 0x80, 0xBF, n⟩, d.text, d.exact⟩
    else d.replace.begin b

/-- Takes many octets. -/
def Decoder.pushAll (d : Decoder) (octets : List UInt8) : Decoder :=
  octets.foldl Decoder.push d

@[simp] theorem Decoder.pushAll_nil (d : Decoder) : d.pushAll [] = d := rfl

theorem Decoder.pushAll_append (d : Decoder) (a b : List UInt8) :
    d.pushAll (a ++ b) = (d.pushAll a).pushAll b :=
  List.foldl_append ..

/-- Ends the text: what was begun is not completed any more. -/
def Decoder.finish (d : Decoder) : Decoder :=
  if d.pending.isSome then d.replace else d

/-- The text of any octets, with U+FFFD for what is no character. -/
def decodeLossy (octets : List UInt8) : List Char :=
  (Decoder.pushAll {} octets).finish.text.reverse

/-- The text of octets that are well-formed throughout. -/
def decode? (octets : List UInt8) : Option (List Char) :=
  let d := (Decoder.pushAll {} octets).finish
  if d.exact then some d.text.reverse else none

end HttpEcho.Utf8
