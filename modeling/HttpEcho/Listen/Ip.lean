import HttpEcho.Number.Unsigned

/-! Internet addresses and their texts.

The text of an address of the sixth version leaves out its longest run of zeros, the first of
several, if it has at least two. -/
namespace HttpEcho.Listen

/-- An internet address. -/
inductive Ip where
  | v4 (bits : BitVec 32)
  | v6 (bits : BitVec 128)
  deriving DecidableEq, Repr

namespace Ip

/-- The address of four octets. -/
def ofOctets (a b c d : UInt8) : Ip :=
  .v4 (a.toBitVec ++ b.toBitVec ++ c.toBitVec ++ d.toBitVec)

/-- The address of the fourth version that one of the sixth stands for, if it stands for one. -/
def plain : Ip → Ip
  | .v4 bits => .v4 bits
  | .v6 bits =>
    if bits.extractLsb' 32 96 = 0xFFFF#96 then .v4 (bits.extractLsb' 0 32) else .v6 bits

/-- Every interface, of the fourth version. -/
def any4 : Ip := .v4 0

/-- Every interface, of the sixth version. -/
def any6 : Ip := .v6 0

/-- Whether an address stands for every interface. -/
def isAny (ip : Ip) : Bool := ip = any4 || ip = any6

/-- Whether an address of the fourth version leads back to the same host. -/
def isLoopback4 : Ip → Bool
  | .v4 bits => bits.extractLsb' 24 8 = 127#8
  | .v6 _ => false

/-- Whether an address is of the sixth version. -/
def isV6 : Ip → Bool
  | .v4 _ => false
  | .v6 _ => true

/-! ### Written -/

/-- The octets of an address of the fourth version. -/
def octets (bits : BitVec 32) : List Nat :=
  [24, 16, 8, 0].map fun i => (bits.extractLsb' i 8).toNat

/-- The groups of an address of the sixth version. -/
def groups (bits : BitVec 128) : List Nat :=
  [112, 96, 80, 64, 48, 32, 16, 0].map fun i => (bits.extractLsb' i 16).toNat

/-- The length of the zeros in front. -/
def zerosAhead (gs : List Nat) : Nat := (gs.takeWhile (· = 0)).length

/-- Where the longest run of zeros begins, and its length. -/
def longestZeros (gs : List Nat) : Nat × Nat :=
  (List.range gs.length).foldl
    (fun best i =>
      let n := zerosAhead (gs.drop i)
      if best.2 < n then (i, n) else best)
    (0, 0)

/-- Groups in hexadecimal, with colons between them. -/
def groupText (gs : List Nat) : String :=
  ":".intercalate (gs.map fun g => String.ofList (Nat.toDigits 16 g))

/-- The text of an address. -/
def text : Ip → String
  | .v4 bits => ".".intercalate ((octets bits).map toString)
  | .v6 bits =>
    let gs := groups bits
    if gs.take 6 = [0, 0, 0, 0, 0, 0xFFFF] then
      "::ffff:" ++ ".".intercalate ((octets (bits.extractLsb' 0 32)).map toString)
    else
      let (start, length) := longestZeros gs
      if length < 2 then groupText gs
      else groupText (gs.take start) ++ "::" ++ groupText (gs.drop (start + length))

/-! ### Read -/

/-- A number up to 255, without zeros in front. -/
def octet? (text : List Char) : Option Nat :=
  match text with
  | ['0'] => some 0
  | '0' :: _ | '+' :: _ => none
  | _ => (Unsigned.parse 255 text).toOption

/-- Four numbers with dots between them. -/
def v4? (text : List Char) : Option (BitVec 32) :=
  match (text.splitOn '.').mapM octet? with
  | some [a, b, c, d] => some (BitVec.ofNat 32 (((a * 256 + b) * 256 + c) * 256 + d))
  | _ => none

/-- A hexadecimal digit. -/
def hexDigit? (c : Char) : Option Nat :=
  if c.isDigit then some (c.toNat - '0'.toNat)
  else if 'a' ≤ c.toLower ∧ c.toLower ≤ 'f' then some (c.toLower.toNat - 'a'.toNat + 10)
  else none

/-- A group of one to four hexadecimal digits. -/
def group? (text : List Char) : Option Nat :=
  if text.isEmpty ∨ 4 < text.length then none
  else text.foldlM (fun n c => (16 * n + ·) <$> hexDigit? c) 0

/-- Groups with colons between them. The last two may be written as four numbers. -/
def groups? (text : List Char) : Option (List Nat) :=
  if text.isEmpty then some []
  else
    let parts := text.splitOn ':'
    match parts.mapM group?, parts.getLast? with
    | some gs, _ => some gs
    | none, some last => do
      let front ← parts.dropLast.mapM group?
      let bits ← v4? last
      return front ++ [bits.toNat / 65536, bits.toNat % 65536]
    | none, none => none

/-- What stands before and after the first pair of colons. -/
def splitPair : List Char → Option (List Char × List Char)
  | ':' :: ':' :: rest => some ([], rest)
  | c :: rest => (splitPair rest).map fun (a, b) => (c :: a, b)
  | [] => none

/-- Whether a text has a dot. Only its last groups may. -/
def hasDot (text : List Char) : Bool := text.contains '.'

/-- An address of the sixth version. A pair of colons stands for one or more groups of zeros. -/
def v6? (text : List Char) : Option (BitVec 128) := do
  let gs ← match splitPair text with
    | none => groups? text
    | some (before, after) => do
      if hasDot before then failure
      let front ← groups? before
      let back ← groups? after
      if front.length + back.length < 8 then
        pure (front ++ List.replicate (8 - front.length - back.length) 0 ++ back)
      else failure
  if gs.length = 8 then return BitVec.ofNat 128 (gs.foldl (fun n g => 65536 * n + g) 0)
  else failure

/-- The address that a host's name is. One of the sixth version stands in brackets. -/
def ofName? (name : List Char) : Option Ip :=
  match name with
  | '[' :: rest =>
    if rest.getLast? = some ']' then (v6? rest.dropLast).map .v6 else none
  | _ => (v4? name).map .v4

end Ip

/-- An address and a port. -/
structure Endpoint where
  ip : Ip
  port : UInt16
  deriving DecidableEq, Repr

/-- The text of an endpoint. -/
def Endpoint.text (e : Endpoint) : String :=
  match e.ip with
  | .v4 _ => e.ip.text ++ ":" ++ toString e.port.toNat
  | .v6 _ => "[" ++ e.ip.text ++ "]:" ++ toString e.port.toNat

end HttpEcho.Listen
