import HttpEcho.Listen.Address
import HttpEcho.Listen.Host
import HttpEcho.Log.Event

/-! Listening at an address.

A socket is made and asked one thing after another, each of which may fail. On all interfaces, one
of the sixth version that serves both is tried first, and when that fails, one of the fourth. -/
namespace HttpEcho.Listen

/-- Why nothing listens at an endpoint. -/
inductive BindCause where
  | system (e : SystemError)
  /-- The host has no address. -/
  | unknownHost
  deriving DecidableEq, Repr

namespace BindCause

/-- What is said of a cause. -/
def message : BindCause → String
  | .system e => e.message
  | .unknownHost => "failed to lookup address information: Name or service not known"

/-- All parts of a cause, by name. -/
def record : BindCause → String
  | .system e => e.record
  | .unknownHost => "Custom \x7b kind: Uncategorized, error: \"" ++ message .unknownHost ++ "\" \x7d"

end BindCause

/-- Why the program does not listen. -/
inductive ListenError where
  /-- The text is no address. -/
  | invalidAddress (raw : String)
  | bind (address : String) (cause : BindCause)
  deriving DecidableEq, Repr

namespace ListenError

/-- What is said of an error. -/
def message : ListenError → String
  | .invalidAddress raw => invalidAddressMessage raw
  | .bind address cause => "Failed to bind " ++ address ++ ": " ++ cause.message

/-- All parts of an error, by name. -/
def record : ListenError → String
  | .invalidAddress raw => "InvalidAddress(" ++ Text.quoted raw ++ ")"
  | .bind address cause =>
    "Bind \x7b address: " ++ Text.quoted address ++ ", source: " ++ cause.record ++ " \x7d"

end ListenError

/-- The address that a text is, or what is wrong with it. -/
def Address.parse (raw : String) : Except ListenError Address :=
  match Address.ofText? raw with
  | some a => .ok a
  | none => .error (.invalidAddress raw)

/-- What a system does with sockets, which are `σ`. -/
structure Sockets (m : Type → Type) (σ : Type) where
  /-- Makes a socket of a version. -/
  make : (v6 : Bool) → m (Except SystemError σ)
  /-- Does what is asked with a socket. -/
  ask : Call → σ → m (Except SystemError σ)
  /-- Closes a socket. -/
  release : σ → m Unit
  /-- The addresses of a name. -/
  resolve : List Char → m (List Ip)
  /-- Where a socket listens. -/
  endpoint : σ → m Endpoint

/-- How many clients may wait. -/
def backlog : Nat := 1024

/-- What is asked of a socket that is to listen at an address of the host. -/
def Call.plain (e : Endpoint) : List Call :=
  [.shareAddress, .bind e, .listen backlog, .watch]

/-- What is asked of a socket that is to listen on every interface. -/
def Call.everyInterface (e : Endpoint) : List Call :=
  (if e.ip.isV6 then [.onlyV6 false] else []) ++
    [.shareAddress, .nonblocking, .bind e, .listen backlog, .watch]

namespace Sockets
variable {m : Type → Type} {σ : Type} [Monad m] (s : Sockets m σ) (log : Log.Event → m Unit)

/-- Asks one thing after another. A socket that is refused one of them is closed. -/
def askAll : List Call → σ → m (Except SystemError σ)
  | [], socket => return .ok socket
  | c :: rest, socket => do
    match ← s.ask c socket with
    | .ok socket => askAll rest socket
    | .error e =>
      s.release socket
      return .error e

/-- Makes a socket for an address, and asks it to listen. -/
def listen (calls : List Call) (ip : Ip) : m (Except SystemError σ) := do
  match ← s.make ip.isV6 with
  | .ok socket => s.askAll calls socket
  | .error e => return .error e

/-- Listens on every interface of a family. -/
def listenOn (e : Endpoint) : m (Except SystemError σ) :=
  s.listen (Call.everyInterface e) e.ip

/-- Listens on every interface. -/
def bindAll (port : UInt16) : m (Except ListenError σ) := do
  match ← s.listenOn ⟨.any6, port⟩ with
  | .ok found => return .ok found
  | .error e =>
    log (.dualStackFailed e.message port.toNat)
    let fallback : Endpoint := ⟨.any4, port⟩
    return (← s.listenOn fallback).mapError fun e => .bind fallback.text (.system e)

/-- Listens at the first of some addresses where that is possible. The last error counts. -/
def listenFirst (port : UInt16) (cause : BindCause) : List Ip → m (Except BindCause σ)
  | [] => return .error cause
  | ip :: rest => do
    match ← s.listen (Call.plain ⟨ip, port⟩) ip with
    | .ok found => return .ok found
    | .error e => listenFirst port (.system e) rest

/-- Listens at an address, without a word when that is done. -/
def bindQuietly (raw : String) : m (Except ListenError σ) := do
  match Address.parse raw with
  | .error e => return .error e
  | .ok (.allInterfaces port) => s.bindAll log port
  | .ok a@(.host name port) =>
    return (← s.listenFirst port .unknownHost (← s.resolve name)).mapError (.bind a.text ·)

/-- Listens at an address. `log` is told what happens. -/
def bind (raw : String) : m (Except ListenError σ) := do
  let bound ← s.bindQuietly log raw
  match bound with
  | .ok found => log (.listenerBound (← s.endpoint found).text)
  | .error _ => pure ()
  return bound

end Sockets

/-- The sockets of a host. -/
def Host.sockets : Sockets (StateM Host) Socket where
  make v6 h := (h.make v6, h)
  ask c s h :=
    match h.ask c s with
    | .ok (h, s) => (.ok s, h)
    | .error e => (.error e, h)
  release s h := ((), h.release s)
  resolve name h := (h.resolve name, h)
  endpoint s h := (s.endpoint, h)

/-- Listens at an address of a host. -/
def Host.bind (h : Host) (raw : String) : Except ListenError Socket × Host :=
  (Host.sockets.bind (fun _ => pure ()) raw).run h

end HttpEcho.Listen
