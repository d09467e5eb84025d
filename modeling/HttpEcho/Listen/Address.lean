import HttpEcho.Number.Unsigned
import HttpEcho.Text.Blank
import HttpEcho.Text.Quoted

/-! Addresses to listen on.

An address is a port on a named host, or on all interfaces. In a text the port follows the last
colon, so a host may hold colons itself; blanks around the text do not count. -/
namespace HttpEcho.Listen

/-- Where to listen. -/
inductive Address where
  /-- Every interface. -/
  | allInterfaces (port : UInt16)
  /-- The interfaces of a host, which is never empty. -/
  | host (name : List Char) (port : UInt16)
  deriving DecidableEq, Repr

/-- What stands before and after the last colon. -/
def splitLastColon (text : List Char) : Option (List Char × List Char) :=
  let after := text.reverse.takeWhile (· != ':')
  match text.reverse.dropWhile (· != ':') with
  | [] => none
  | _ :: before => some (before.reverse, after.reverse)

/-- The port that a text is. -/
def port? (text : List Char) : Option UInt16 :=
  match Unsigned.parse 65535 text with
  | .ok n => some (UInt16.ofNat n)
  | .error _ => none

/-- The address that a text is. -/
def Address.ofText? (raw : String) : Option Address := do
  let (name, port) ← splitLastColon (Text.trim raw.toList)
  let port ← port? port
  return if name.isEmpty then .allInterfaces port else .host name port

/-- The written form of an address: what `ofText?` reads. -/
def Address.text : Address → String
  | .allInterfaces port => ":" ++ toString port.toNat
  | .host name port => String.ofList name ++ ":" ++ toString port.toNat

/-- What is said of a text that is no address. -/
def invalidAddressMessage (raw : String) : String :=
  "Invalid listen address " ++ Text.quoted raw ++ ": expected host:port or :port"

end HttpEcho.Listen
