import HttpEcho.Json.Value
import HttpEcho.Number.Shortest
import HttpEcho.Text.Buffer

/-! Writing JSON values, compactly, at the end of a buffer of octets.

There are no blanks outside strings. In strings only the quote, the backslash and the characters
below U+0020 are escaped, each in one way. Integers are their digits; binary64 numbers are the
shortest digits that read back, positional from `10 ^ -5` up to below `10 ^ 16` and otherwise with
a signed exponent.

A scalar is written to a sink, which may refuse it. A buffer is a sink that refuses nothing. -/
namespace HttpEcho.Json

/-- The characters of a number. -/
def Number.text : Number → List Char
  | .integer i => (if i < 0 then ['-'] else []) ++ Nat.toDigits 10 i.natAbs
  | .real x =>
    let s := (Binary64.shortest .toEven x.units).significant
    let digits := if -4 ≤ s.point ∧ s.point ≤ 16 then s.positional else s.scientific
    (if x.negative then ['-'] else []) ++ digits

/-- A character inside a string. -/
def escape (c : Char) : List Char :=
  if c = '"' then ['\\', '"']
  else if c = '\\' then ['\\', '\\']
  else if c = '\x08' then ['\\', 'b']
  else if c = '\t' then ['\\', 't']
  else if c = '\n' then ['\\', 'n']
  else if c = '\x0c' then ['\\', 'f']
  else if c = '\r' then ['\\', 'r']
  else if c < ' ' then
    ['\\', 'u', '0', '0', Nat.digitChar (c.toNat / 16), Nat.digitChar (c.toNat % 16)]
  else [c]

/-! ### Scalars -/

/-- Takes characters or refuses them. What it took before stays. -/
abbrev Sink (σ : Type) := List Char → EStateM Unit σ Unit

/-- A buffer takes everything. -/
def bufferSink : Sink Buffer := fun more => modify (·.text more)

/-- A value that holds no other. -/
inductive Scalar where
  | null
  | boolean (b : Bool)
  | number (n : Number)
  | string (s : String)

/-- Writes a string in quotes. -/
def putString (sink : Sink σ) (s : String) : EStateM Unit σ Unit := do
  sink ['"']
  s.toList.forM fun c => sink (escape c)
  sink ['"']

/-- Writes a scalar, up to the first piece that is refused. -/
def Scalar.put (sink : Sink σ) : Scalar → EStateM Unit σ Unit
  | .null => sink ['n', 'u', 'l', 'l']
  | .boolean true => sink ['t', 'r', 'u', 'e']
  | .boolean false => sink ['f', 'a', 'l', 's', 'e']
  | .number n => sink n.text
  | .string s => putString sink s

/-- Appends a scalar. After one that is refused, a null is appended. -/
def Scalar.write (x : Scalar) (out : Buffer) : Buffer :=
  match x.put bufferSink out with
  | .ok _ out => out
  | .error _ out => out.text ['n', 'u', 'l', 'l']

/-! ### The buffer -/

/-- Appends a comma before all but the first of several. -/
def writeSeparator (first : Bool) (out : Buffer) : Buffer :=
  if first then out else out.text [',']

mutual

/-- Appends a value. -/
def Value.write : Value → Buffer → Buffer
  | .null, out => Scalar.null.write out
  | .boolean b, out => (Scalar.boolean b).write out
  | .number n, out => (Scalar.number n).write out
  | .string s, out => (Scalar.string s).write out
  | .array items, out => (Value.writeItems items true (out.text ['['])).text [']']
  | .object members, out => (Value.writeMembers members true (out.text ['{'])).text ['}']

/-- Appends items, with commas between them. -/
def Value.writeItems : List Value → (first : Bool) → Buffer → Buffer
  | [], _, out => out
  | v :: rest, first, out => Value.writeItems rest false (v.write (writeSeparator first out))

/-- Appends members, with commas between them. -/
def Value.writeMembers : List (String × Value) → (first : Bool) → Buffer → Buffer
  | [], _, out => out
  | (name, v) :: rest, first, out =>
    let out := ((Scalar.string name).write (writeSeparator first out)).text [':']
    Value.writeMembers rest false (v.write out)

end

/-- The octets of a value. -/
def Value.encode (v : Value) : List UInt8 :=
  (v.write #[]).toList

end HttpEcho.Json
