import HttpEcho.Text.Utf8

/-! Request targets.

A target is a path, or `*`, or an authority, or all of a URI. Its text is taken octet by octet, and
octets beyond ASCII in it must be characters; what follows a `#` does not belong to it. Only `path`
matters to the service. -/
namespace HttpEcho.Http

/-! ### Classes of octets -/

/-- The ASCII letters and digits. -/
def isAlphanumeric (b : UInt8) : Bool :=
  (0x30 ≤ b && b ≤ 0x39) || (0x41 ≤ b && b ≤ 0x5A) || (0x61 ≤ b && b ≤ 0x7A)

/-- The octets of a scheme. -/
def isSchemeOctet (b : UInt8) : Bool :=
  isAlphanumeric b || b = 0x2B || b = 0x2D || b = 0x2E

/-- The octets of a path: no blanks, no angle brackets, no grave accent. Octets beyond ASCII may
stand unescaped. -/
def isPathOctet (b : UInt8) : Bool :=
  0x21 ≤ b && b != 0x23 && b != 0x3C && b != 0x3E && b != 0x3F && b != 0x60

/-- The octets of a query. -/
def isQueryOctet (b : UInt8) : Bool :=
  0x21 ≤ b && b != 0x22 && b != 0x23 && b != 0x3C && b != 0x3E

/-- The octets of an authority, the percent sign apart. -/
def isAuthorityOctet (b : UInt8) : Bool :=
  isAlphanumeric b || [0x21, 0x24, 0x26, 0x27, 0x28, 0x29, 0x2A, 0x2B, 0x2C, 0x2D, 0x2E, 0x3A,
    0x3B, 0x3D, 0x40, 0x5B, 0x5D, 0x5F, 0x7E].contains b

/-- The octets that end an authority. -/
def endsAuthority (b : UInt8) : Bool :=
  b = 0x2F || b = 0x3F || b = 0x23

/-! ### Parts -/

/-- What was seen of an authority. A port's colon counts from the last `@` or `]` on. -/
structure Authority where
  colons : Nat := 0
  opened : Bool := false
  closed : Bool := false
  percent : Bool := false
  endsInAt : Bool := false

/-- The most colons between brackets, and one more. -/
def maxColons : Nat := 8

/-- Takes an octet of an authority. -/
def Authority.push (a : Authority) (b : UInt8) : Option Authority :=
  if b = 0x3A then
    if maxColons ≤ a.colons then none
    else some { a with colons := a.colons + 1, endsInAt := false }
  else if b = 0x5B then
    if a.percent || a.opened then none else some { a with opened := true, endsInAt := false }
  else if b = 0x5D then
    if !a.opened || a.closed then none else some ⟨0, true, true, false, false⟩
  else if b = 0x40 then some { a with colons := 0, percent := false, endsInAt := true }
  else if b = 0x25 then some { a with percent := true, endsInAt := false }
  else if isAuthorityOctet b then some { a with endsInAt := false }
  else none

/-- Whether an authority may end: brackets are closed, at most one colon stands before a port,
something follows an `@`, and no percent sign is in the host. -/
def Authority.complete (a : Authority) : Bool :=
  a.opened == a.closed && a.colons ≤ 1 && !a.endsInAt && !a.percent

/-- The authority at the front, and what follows it. -/
def splitAuthority (s : List UInt8) : Option (List UInt8 × List UInt8) := do
  let text := s.takeWhile (!endsAuthority ·)
  let a ← text.foldlM Authority.push {}
  if a.complete then some (text, s.dropWhile (!endsAuthority ·)) else none

/-- What a URI begins with. -/
inductive Scheme where
  /-- A scheme, and what follows `://`. -/
  | named (rest : List UInt8)
  | absent
  | tooLong

/-- The longest scheme. -/
def maxSchemeLength : Nat := 64

/-- Looks for a scheme. -/
def Scheme.of (s : List UInt8) : Scheme :=
  let name := s.takeWhile isSchemeOctet
  match s.dropWhile isSchemeOctet with
  | 0x3A :: 0x2F :: 0x2F :: rest => if name.length ≤ maxSchemeLength then .named rest else .tooLong
  | _ => .absent

/-- A path and a query. A fragment is dropped. -/
structure PathAndQuery where
  path : List UInt8
  query : Option (List UInt8) := none
  deriving DecidableEq, Repr

/-- The path and query at the front of a text, up to a fragment. -/
def PathAndQuery.split? (s : List UInt8) : Option PathAndQuery :=
  let path := s.takeWhile isPathOctet
  match s.dropWhile isPathOctet with
  | [] => some ⟨path, none⟩
  | 0x23 :: _ => some ⟨path, none⟩
  | 0x3F :: rest =>
    let query := rest.takeWhile isQueryOctet
    match rest.dropWhile isQueryOctet with
    | [] => some ⟨path, some query⟩
    | 0x23 :: _ => some ⟨path, some query⟩
    | _ => none
  | _ => none

/-- The path and query that a text is. -/
def PathAndQuery.of? (s : List UInt8) : Option PathAndQuery := do
  let p ← split? s
  guard (Utf8.decode? p.path).isSome
  guard (Utf8.decode? (p.query.getD [])).isSome
  return p

/-! ### Targets -/

/-- A request target. -/
inductive Target where
  /-- A path from the root. -/
  | origin (p : PathAndQuery)
  /-- A URI with a scheme. -/
  | absolute (authority : List UInt8) (p : PathAndQuery)
  | authority (text : List UInt8)
  | asterisk
  deriving DecidableEq, Repr

/-- The longest target. -/
def maxTargetLength : Nat := 65534

/-- The target that a text is. -/
def Target.of? (s : List UInt8) : Option Target :=
  if maxTargetLength < s.length then none
  else match s with
  | [] => none
  | [0x2A] => some .asterisk
  | 0x2F :: _ => (PathAndQuery.of? s).map .origin
  | _ =>
    match Scheme.of s with
    | .tooLong => none
    | .absent => do
      let (text, rest) ← splitAuthority s
      if rest.isEmpty then some (.authority text) else none
    | .named rest => do
      let (text, rest) ← splitAuthority rest
      if text.isEmpty then none else (PathAndQuery.of? rest).map (.absolute text)

/-- The path of a target. A URI without a path has the root's; an authority has none. -/
def Target.path : Target → List UInt8
  | .origin p => p.path
  | .absolute _ p => if p.path.isEmpty then [0x2F] else p.path
  | .authority _ => []
  | .asterisk => [0x2A]

end HttpEcho.Http
