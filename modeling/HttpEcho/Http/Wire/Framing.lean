import HttpEcho.Http.Wire.Head

/-! How long a request's body is, and whether its connection stays.

Both follow from the fields of the head, one after another. A body in chunks has no other length;
lengths that contradict each other are refused. -/
namespace HttpEcho.Http.Wire

/-- The length of a body. -/
inductive Framing where
  | length (n : Nat)
  | chunked
  deriving DecidableEq, Repr

/-- A request whose body is still to come. -/
structure Arrival where
  request : Request
  version : Version
  framing : Framing := .length 0
  /-- Another request may follow. -/
  keepsAlive : Bool
  /-- The client waits for a word before it sends the body. -/
  expectsContinue : Bool := false

/-! ### Values -/

/-- A value as ASCII text without capitals. -/
def loweredText (octets : List UInt8) : List Char :=
  octets.map fun b => (Char.ofNat b.toNat).toLower

/-- The members of a list with commas, without the blanks around them. -/
def members (v : HeaderValue) : List (List Char) :=
  (v.octets.splitOn 0x2C).map fun m => loweredText (trimBlank m)

/-- A length: digits alone, in the range of 64 bits. -/
def length? (v : HeaderValue) : Option Nat :=
  let text := v.octets.map fun b => Char.ofNat b.toNat
  if text ≠ [] ∧ text.all Char.isDigit then
    let n := text.foldl (fun n c => 10 * n + (c.toNat - '0'.toNat)) 0
    if n < UInt64.size then some n else none
  else none

/-! ### Fields -/

/-- What the fields so far say. -/
structure Reading where
  headers : Headers := {}
  length : Option Nat := none
  /-- A transfer coding was given, and whether the last one is by chunks. -/
  coding : Option Bool := none
  keepsAlive : Bool
  expectsContinue : Bool := false

/-- Takes a field. A length that repeats an earlier one, or comes after a transfer coding, is left
out. -/
def Reading.take (version : Version) (r : Reading) (field : HeaderName × HeaderValue) :
    Except HeadError Reading :=
  let (name, value) := field
  let kept := { r with headers := r.headers.append name value }
  match String.ofList name.text with
  | "content-length" =>
    if r.coding.isSome then .ok r
    else
      match length? value, r.length with
      | none, _ => .error .malformed
      | some n, none =>
        if UInt64.size - 2 ≤ n then .error .tooLarge else .ok { kept with length := some n }
      | some n, some m => if n = m then .ok r else .error .malformed
  | "transfer-encoding" =>
    if version = .http10 then .error .malformed
    else .ok { kept with coding := some ((members value).getLast? = some "chunked".toList) }
  | "connection" =>
    match version with
    | .http11 => .ok { kept with keepsAlive := !(members value).contains "close".toList }
    | .http10 => .ok { kept with keepsAlive := (members value).contains "keep-alive".toList }
  | "expect" =>
    .ok { kept with expectsContinue := loweredText value.octets = "100-continue".toList }
  | _ => .ok kept

/-- The request of a head, with what its fields say of the body. -/
def Head.arrival (h : Head) : Except HeadError Arrival := do
  let r ← h.fields.foldlM (Reading.take h.version) { keepsAlive := h.version = .http11 }
  let framing ← match r.coding with
    | some true => pure .chunked
    | some false => throw .malformed
    | none => pure (.length (r.length.getD 0))
  return {
    request := ⟨h.method, h.target, r.headers, {}⟩
    version := h.version
    framing
    keepsAlive := r.keepsAlive
    expectsContinue := r.expectsContinue && framing ≠ .length 0 }

end HttpEcho.Http.Wire
