import HttpEcho.Http.Body
import HttpEcho.Http.Wire.Framing

/-! Taking a body off the wire.

What comes is cut where the body ends: after so many octets, or after the chunk of length zero and
the fields behind it. The pieces of the body are its chunks. -/
namespace HttpEcho.Http.Wire

/-- What is expected next of a body in chunks. -/
inductive ChunkPart where
  /-- The digits of a length; `none` before the first. -/
  | size (n : Option Nat)
  /-- Something behind a length that does not count. -/
  | extension (n : Nat)
  /-- The line feed behind a length. -/
  | sizeEnd (n : Nat)
  /-- So many octets of a chunk. -/
  | content (left : Nat)
  /-- The line end behind a chunk. -/
  | contentEnd
  | contentFeed
  /-- A line behind the last chunk, and whether it is still empty. -/
  | trailer (empty : Bool)
  deriving DecidableEq, Repr

/-- What is expected next of a body. -/
inductive Expected where
  | octets (left : Nat)
  | chunk (part : ChunkPart)
  | nothing
  /-- The chunks are not well-formed. -/
  | broken
  deriving DecidableEq, Repr

/-- A body that is being taken: what is expected, and the pieces so far, the last one first. -/
structure Intake where
  expected : Expected
  pieces : List (List UInt8) := []
  /-- How many octets the pieces have. -/
  size : Nat := 0

namespace Intake

/-- The start of a body. -/
def ofFraming : Framing → Intake
  | .length 0 => ⟨.nothing, [], 0⟩
  | .length n => ⟨.octets n, [], 0⟩
  | .chunked => ⟨.chunk (.size none), [], 0⟩

/-- The value of a hexadecimal digit. -/
def hexDigit? (b : UInt8) : Option Nat :=
  let c := Char.ofNat b.toNat
  if c.isDigit then some (c.toNat - '0'.toNat)
  else if 'a' ≤ c.toLower ∧ c.toLower ≤ 'f' then some (c.toLower.toNat - 'a'.toNat + 10)
  else none

/-- What follows a chunk's length. -/
def afterSize (n : Nat) : Expected :=
  if n = 0 then .chunk (.trailer true) else .chunk (.content n)

/-- What is expected after an octet that is not part of the body itself. -/
def next (part : ChunkPart) (b : UInt8) : Expected :=
  match part with
  | .size n =>
    match hexDigit? b, n with
    | some d, _ =>
      let m := 16 * n.getD 0 + d
      if m < UInt64.size then .chunk (.size (some m)) else .broken
    | none, none => .broken
    | none, some n =>
      if b = carriageReturn then .chunk (.sizeEnd n)
      else if b = 0x3B ∨ isBlankOctet b then .chunk (.extension n)
      else .broken
  | .extension n =>
    if b = carriageReturn then .chunk (.sizeEnd n)
    else if b = lineFeed then .broken
    else .chunk (.extension n)
  | .sizeEnd n => if b = lineFeed then afterSize n else .broken
  | .content _ => .broken
  | .contentEnd => if b = carriageReturn then .chunk .contentFeed else .broken
  | .contentFeed => if b = lineFeed then .chunk (.size none) else .broken
  | .trailer empty =>
    if b = lineFeed then if empty then .nothing else .chunk (.trailer true)
    else if b = carriageReturn then .chunk (.trailer empty)
    else .chunk (.trailer false)

/-- Adds a piece. -/
def add (t : Intake) (piece : List UInt8) (expected : Expected) : Intake :=
  ⟨expected, if piece.isEmpty then t.pieces else piece :: t.pieces, t.size + piece.length⟩

/-- Takes what came, and gives what is behind the body. `many` bounds how many pieces are taken;
each one is at least one octet. -/
def takeWithin (t : Intake) : (many : Nat) → (input : List UInt8) → Intake × List UInt8
  | 0, input => (t, input)
  | many + 1, input =>
    match t.expected, input with
    | .nothing, _ | .broken, _ | _, [] => (t, input)
    | .octets left, input =>
      let piece := input.take left
      let left := left - piece.length
      (t.add piece (if left = 0 then .nothing else .octets left), input.drop piece.length)
    | .chunk (.content left), input =>
      let piece := input.take left
      let left := left - piece.length
      takeWithin (t.add piece (.chunk (if left = 0 then .contentEnd else .content left))) many
        (input.drop piece.length)
    | .chunk part, b :: rest => takeWithin { t with expected := next part b } many rest

/-- Takes what came, and gives what is behind the body. -/
def take (t : Intake) (input : List UInt8) : Intake × List UInt8 :=
  t.takeWithin input.length input

/-- Whether nothing more is to come. -/
def ended (t : Intake) : Bool :=
  t.expected = .nothing || t.expected = .broken

/-- What is said of a body that breaks off. -/
def brokenText : String := "error reading a body from connection"

/-- The body that came. One that is not complete breaks off. -/
def body (t : Intake) : Body :=
  ⟨t.pieces.reverse, if t.expected = .nothing then none else some brokenText⟩

end Intake

end HttpEcho.Http.Wire
