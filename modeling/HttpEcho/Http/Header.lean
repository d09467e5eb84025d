import HttpEcho.Text.Buffer
import HttpEcho.Text.Utf8

/-! Header fields of a request, and their dump.

A `Headers` map groups the values of a name, which has no case, under the first place at which the
name came; values keep their order. `dump` writes one line for each value, with the name in
canonical case. -/
namespace HttpEcho.Http

/-! ### Names -/

/-- The characters of tokens. -/
def isTokenChar (c : Char) : Bool :=
  c.isAlphanum || "!#$%&'*+-.^_`|~".toList.contains c

/-- A token has at least one character. -/
def isToken (text : List Char) : Bool :=
  !text.isEmpty && text.all isTokenChar

/-- The longest name. -/
def maxNameLength : Nat := 65535

/-- A header name, in lower case. -/
structure HeaderName where
  text : List Char
  isName : isToken text && !text.any Char.isUpper
  deriving DecidableEq

/-- The name that octets are, in whatever case. -/
def HeaderName.ofOctets? (octets : List UInt8) : Option HeaderName :=
  let text := octets.map fun b => (Char.ofNat b.toNat).toLower
  if h : isToken text && !text.any Char.isUpper then
    if octets.length ≤ maxNameLength then some ⟨text, h⟩ else none
  else none

/-- A name in canonical case: ASCII letters are capitals at the start and after a hyphen. -/
def canonicalCase (name : List Char) : List Char :=
  List.zipWith (fun before c => if before = '-' then c.toUpper else c.toLower) ('-' :: name) name

/-! ### Values -/

/-- The octets of header values. -/
def isValueOctet (b : UInt8) : Bool :=
  b = 9 || (32 ≤ b && b != 127)

/-- A header value. -/
structure HeaderValue where
  octets : List UInt8
  valid : octets.all isValueOctet
  deriving DecidableEq

/-- The value that octets are. -/
def HeaderValue.ofOctets? (octets : List UInt8) : Option HeaderValue :=
  if h : octets.all isValueOctet then some ⟨octets, h⟩ else none

/-! ### Maps -/

/-- Appends a value to the group of its name. -/
def appendTo (name : HeaderName) (value : HeaderValue) :
    List (HeaderName × List HeaderValue) → List (HeaderName × List HeaderValue)
  | [] => [(name, [value])]
  | (n, values) :: rest =>
    if n = name then (n, values ++ [value]) :: rest else (n, values) :: appendTo name value rest

/-- Header fields, grouped by name. -/
structure Headers where
  groups : List (HeaderName × List HeaderValue) := []

namespace Headers

/-- Appends a field. -/
def append (h : Headers) (name : HeaderName) (value : HeaderValue) : Headers :=
  ⟨appendTo name value h.groups⟩

/-- The fields, appended one after another. -/
def ofFields (fields : List (HeaderName × HeaderValue)) : Headers :=
  fields.foldl (fun h (name, value) => h.append name value) {}

/-- The values of a name. -/
def values (h : Headers) (name : List Char) : List HeaderValue :=
  ((h.groups.find? (·.1.text = name)).map (·.2)).getD []

end Headers

/-- Why a pair of octet sequences is no field. -/
inductive FieldError where
  | name
  | value
  deriving DecidableEq, Repr

/-- The map of fields given as octets. The first bad field decides, its name before its value. -/
def Headers.ofOctets (h : Headers) :
    List (List UInt8 × List UInt8) → Except FieldError Headers
  | [] => .ok h
  | (name, value) :: rest =>
    match HeaderName.ofOctets? name, HeaderValue.ofOctets? value with
    | none, _ => .error .name
    | some _, none => .error .value
    | some n, some v => (h.append n v).ofOctets rest

/-! ### The dump -/

/-- Appends the line of a field. -/
def writeField (name : HeaderName) (value : HeaderValue) (out : Buffer) : Buffer :=
  (((out.text (canonicalCase name.text)).text [':', ' ']).text
    (Utf8.decodeLossy value.octets)).text ['\n']

/-- Appends a line for every value. -/
def Headers.write (h : Headers) (out : Buffer) : Buffer :=
  h.groups.foldl
    (fun out (name, values) => values.foldl (fun out value => writeField name value out) out) out

end HttpEcho.Http
