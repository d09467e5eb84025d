import HttpEcho.Log.Event

/-! Reading request bodies.

A body comes in chunks and may break off. It is read up to a limit; a longer body, or one that
breaks off, is read as empty, and the reason is logged. -/
namespace HttpEcho.Http

/-- A request body: its chunks, and the error that it ends with, if it does. -/
structure Body where
  chunks : List (List UInt8) := []
  failure : Option String := none

/-- Why a body was not read. -/
inductive ReadError where
  | tooLong
  | broken (text : String)
  deriving DecidableEq, Repr

/-- The wording of a reason. -/
def ReadError.message : ReadError → String
  | .tooLong => "length limit exceeded"
  | .broken text => text

namespace Body

/-- A body that is there at once. -/
def full (octets : List UInt8) : Body := ⟨[octets], none⟩

/-- Reads chunks while they fit. What was read is kept the last chunk first. -/
def gather (failure : Option String) (left : Nat) (got : List (List UInt8)) :
    List (List UInt8) → Except ReadError (List UInt8)
  | [] =>
    match failure with
    | none => .ok got.reverse.flatten
    | some text => .error (.broken text)
  | c :: rest =>
    if c.length ≤ left then gather failure (left - c.length) (c :: got) rest
    else .error .tooLong

/-- Reads a body of at most `limit` octets. -/
def read (limit : Nat) (b : Body) : Except ReadError (List UInt8) :=
  gather b.failure limit [] b.chunks

/-- The octets of a body; none if it was not read. -/
def octets (limit : Nat) (b : Body) : List UInt8 :=
  match b.read limit with
  | .ok octets => octets
  | .error _ => []

/-- What reading a body logs. -/
def log (limit : Nat) (b : Body) : List Log.Event :=
  match b.read limit with
  | .ok _ => []
  | .error e => [.bodyUnread e.message limit]

end Body

end HttpEcho.Http
