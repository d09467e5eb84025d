import HttpEcho.Http.Router

/-! The head of a request on the wire.

A head is a request line and one line for each field, up to an empty line. A line ends in a line
feed, before which a carriage return does not count. Lines are looked at as soon as they are
complete, so a bad one is refused before the head is. -/
namespace HttpEcho.Http.Wire

/-- A version of the protocol. -/
inductive Version where
  | http10
  | http11
  deriving DecidableEq, Repr

/-- The version's name. -/
def Version.text : Version → String
  | .http10 => "HTTP/1.0"
  | .http11 => "HTTP/1.1"

/-- The version with a name. -/
def Version.ofOctets? (octets : List UInt8) : Option Version :=
  [Version.http10, .http11].find? fun v => v.text.toUTF8.toList = octets

/-- The head of a request, its fields in the order in which they came. -/
structure Head where
  method : Method
  target : Target
  version : Version
  fields : List (HeaderName × HeaderValue)

/-- Why a head is refused. -/
inductive HeadError where
  | malformed
  | targetTooLong
  | tooLarge
  deriving DecidableEq, Repr

/-- The status that a refusal is answered with. -/
def HeadError.status : HeadError → Nat
  | .malformed => 400
  | .targetTooLong => 414
  | .tooLarge => 431

/-- The most fields of a head. -/
def maxFields : Nat := 100

/-- The most octets that are kept of a head. -/
def maxHeadOctets : Nat := 417792

/-! ### Lines -/

/-- A line feed. -/
def lineFeed : UInt8 := 0x0A

/-- A carriage return. -/
def carriageReturn : UInt8 := 0x0D

/-- A space. -/
def space : UInt8 := 0x20

/-- A colon. -/
def colon : UInt8 := 0x3A

/-- Whether an octet is a blank in a line. -/
def isBlankOctet (b : UInt8) : Bool := b = 0x20 || b = 0x09

/-- The first line without its end, and what follows it; `none` if it does not end yet. -/
def splitLine (input : List UInt8) : Option (List UInt8 × List UInt8) :=
  match input.dropWhile (· ≠ lineFeed) with
  | [] => none
  | _ :: rest =>
    let line := input.takeWhile (· ≠ lineFeed)
    some (if line.getLast? = some carriageReturn then line.dropLast else line, rest)

theorem splitLine_length {input line rest : List UInt8} (h : splitLine input = some (line, rest)) :
    rest.length < input.length := by
  unfold splitLine at h
  split at h
  · simp at h
  · rename_i b r hd
    simp only [Option.some.injEq, Prod.mk.injEq] at h
    have hl := (List.dropWhile_sublist (· ≠ lineFeed) (l := input)).length_le
    rw [hd] at hl
    simp only [List.length_cons] at hl
    rw [← h.2]
    omega

/-- A text without the blanks around it. -/
def trimBlank (octets : List UInt8) : List UInt8 :=
  ((octets.dropWhile isBlankOctet).reverse.dropWhile isBlankOctet).reverse

/-- What stands before and after the first octet of a kind. -/
def splitAt? (b : UInt8) (octets : List UInt8) : Option (List UInt8 × List UInt8) :=
  match octets.dropWhile (· ≠ b) with
  | [] => none
  | _ :: rest => some (octets.takeWhile (· ≠ b), rest)

/-- A request line: a method, a target and a version with one space between them. -/
def requestLine (line : List UInt8) : Except HeadError (Method × Target × Version) :=
  match splitAt? space line with
  | none => .error .malformed
  | some (method, rest) =>
    match splitAt? space rest with
    | none => .error .malformed
    | some (target, version) =>
      if maxTargetLength < target.length then .error .targetTooLong
      else
        match Method.ofOctets? method, Target.of? target, Version.ofOctets? version with
        | some m, some t, some v => .ok (m, t, v)
        | _, _, _ => .error .malformed

/-- The line of a field: a name, a colon right after it, and a value with blanks around it. -/
def fieldLine? (line : List UInt8) : Option (HeaderName × HeaderValue) := do
  let (name, value) ← splitAt? colon line
  return (← HeaderName.ofOctets? name, ← HeaderValue.ofOctets? (trimBlank value))

/-! ### Heads -/

/-- What has come of a head so far. -/
inductive Progress where
  /-- It is not complete. -/
  | incomplete
  | refused (e : HeadError)
  | complete (h : Head) (rest : List UInt8)

/-- Takes the lines of fields up to an empty one. -/
def takeFields (method : Method) (target : Target) (version : Version)
    (fields : List (HeaderName × HeaderValue)) (input : List UInt8) : Progress :=
  match _ : splitLine input with
  | none => .incomplete
  | some ([], rest) => .complete ⟨method, target, version, fields.reverse⟩ rest
  | some (line, rest) =>
    if maxFields ≤ fields.length then .refused .tooLarge
    else
      match fieldLine? line with
      | none => .refused .malformed
      | some field => takeFields method target version (field :: fields) rest
termination_by input.length
decreasing_by exact splitLine_length (by assumption)

/-- Takes the lines of a head. Empty lines in front do not count. -/
def takeHead (input : List UInt8) : Progress :=
  match _ : splitLine input with
  | none => .incomplete
  | some ([], rest) => takeHead rest
  | some (line, rest) =>
    match requestLine line with
    | .error e => .refused e
    | .ok (method, target, version) => takeFields method target version [] rest
termination_by input.length
decreasing_by exact splitLine_length (by assumption)

/-- The head at the front of what came. -/
def Head.read (input : List UInt8) : Progress :=
  match takeHead input with
  | .incomplete => if maxHeadOctets < input.length then .refused .tooLarge else .incomplete
  | other => other

end HttpEcho.Http.Wire
