/-! Base64 in the URL-safe alphabet, padded.

Three octets are four characters; one or two octets at the end are filled up with `=`. `encode`
writes this form and `decode?` reads exactly it: the padding is required and the bits that no
octet fills are zero. -/
namespace HttpEcho.Base64

/-! ### The alphabet -/

/-- The character of six bits. -/
def digit (n : Nat) : Char :=
  if n < 26 then Char.ofNat ('A'.toNat + n)
  else if n < 52 then Char.ofNat ('a'.toNat + (n - 26))
  else if n < 62 then Char.ofNat ('0'.toNat + (n - 52))
  else if n = 62 then '-'
  else '_'

/-- The six bits of a character. -/
def value? (c : Char) : Option Nat :=
  if 'A' ≤ c ∧ c ≤ 'Z' then some (c.toNat - 'A'.toNat)
  else if 'a' ≤ c ∧ c ≤ 'z' then some (c.toNat - 'a'.toNat + 26)
  else if '0' ≤ c ∧ c ≤ '9' then some (c.toNat - '0'.toNat + 52)
  else if c = '-' then some 62
  else if c = '_' then some 63
  else none

/-! ### Writing -/

/-- The four characters of three octets. -/
def group (a b c : UInt8) : List Char :=
  [digit (a.toNat / 4), digit (a.toNat % 4 * 16 + b.toNat / 16),
    digit (b.toNat % 16 * 4 + c.toNat / 64), digit (c.toNat % 64)]

/-- Writes octets after what is written, which is kept the last character first. -/
def encodeOnto (written : List Char) : List UInt8 → List Char
  | a :: b :: c :: rest => encodeOnto ((group a b c).reverse ++ written) rest
  | [a, b] => '=' :: (group a b 0).reverse.drop 1 ++ written
  | [a] => '=' :: '=' :: (group a 0 0).reverse.drop 2 ++ written
  | [] => written

/-- The base64 text of octets. -/
def encode (octets : List UInt8) : List Char :=
  (encodeOnto [] octets).reverse

/-! ### Reading -/

/-- The first octet of a group, from its first two characters. -/
def first (a b : Nat) : UInt8 :=
  UInt8.ofNat (a * 4 + b / 16)

/-- The second octet, from the second and third. -/
def second (b c : Nat) : UInt8 :=
  UInt8.ofNat (b % 16 * 16 + c / 4)

/-- The third octet, from the third and fourth. -/
def third (c d : Nat) : UInt8 :=
  UInt8.ofNat (c % 4 * 64 + d)

/-- The octets that a text stands for, if it is the one text that does. -/
def decode? : List Char → Option (List UInt8)
  | [] => some []
  | [a, b, '=', '='] => do
    let a ← value? a
    let b ← value? b
    guard (b % 16 = 0)
    some [first a b]
  | [a, b, c, '='] => do
    let a ← value? a
    let b ← value? b
    let c ← value? c
    guard (c % 4 = 0)
    some [first a b, second b c]
  | a :: b :: c :: d :: rest => do
    let a ← value? a
    let b ← value? b
    let c ← value? c
    let d ← value? d
    return first a b :: second b c :: third c d :: (← decode? rest)
  | _ => none

end HttpEcho.Base64
