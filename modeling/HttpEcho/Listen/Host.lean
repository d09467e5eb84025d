import HttpEcho.Listen.Ip
import HttpEcho.SystemError

/-! The sockets of a host.

A socket is made, set up, bound to an endpoint, and then listens. A socket that listens is reached
at its own address, or at all of a family if it is bound to every interface. Two sockets that could
be reached at one endpoint cannot listen at the same time, and one that is bound keeps others away
even before it listens, unless both may share their endpoint. -/
namespace HttpEcho.Listen

/-- A socket. Until it is bound its port is zero. -/
structure Socket where
  endpoint : Endpoint
  /-- A socket of the sixth version that is not reached by the fourth. -/
  onlyV6 : Bool := false
  /-- It may be bound where others like it are bound that do not listen. -/
  shares : Bool := false
  listening : Bool := false
  deriving DecidableEq, Repr

/-- Whether a client reaches a socket at an address. An address of the fourth version may be written
as one of the sixth. -/
def Socket.reachedAt (s : Socket) (ip : Ip) : Bool :=
  match s.endpoint.ip.plain, ip.plain with
  | .v4 a, .v4 b => a = 0 || a = b
  | .v6 a, .v6 b => a = 0 || a = b
  | .v6 a, .v4 _ => a = 0 && !s.onlyV6
  | .v4 _, .v6 _ => false

/-- Whether two sockets could be reached at one endpoint. -/
def Socket.conflicts (s t : Socket) : Bool :=
  s.endpoint.port = t.endpoint.port &&
    (s.reachedAt t.endpoint.ip || t.reachedAt s.endpoint.ip)

/-- Whether a bound socket lets another one be bound where it is. -/
def Socket.givesWay (t s : Socket) : Bool :=
  t.shares && s.shares && !t.listening

/-- What a system is asked to do with a socket. -/
inductive Call where
  /-- Whether only clients of the sixth version are to reach it. -/
  | onlyV6 (on : Bool)
  | shareAddress
  | nonblocking
  /-- Port zero asks for any port that is free. -/
  | bind (e : Endpoint)
  | listen (backlog : Nat)
  /-- Hands it to what waits for clients. -/
  | watch
  deriving DecidableEq, Repr

/-- What a call sets about a socket. -/
def Call.setting : Call → Socket → Socket
  | .onlyV6 on, s => { s with onlyV6 := on }
  | .shareAddress, s => { s with shares := true }
  | _, s => s

/-- What a host has. -/
structure Host where
  /-- Why no socket of a version is made, if none is. -/
  unmade : (v6 : Bool) → Option SystemError := fun _ => none
  /-- Why a call on a socket of a version fails for reasons of the system's own: a port that needs
  a privilege, too many open files, no memory. -/
  refuses : (v6 : Bool) → Call → Option SystemError := fun _ _ => none
  /-- Whether a new socket of the sixth version is not reached by the fourth. -/
  onlyV6 : Bool := false
  /-- Its addresses, besides those that stand for every interface. -/
  has : Ip → Bool := Ip.isLoopback4
  /-- The ports that are assigned when none is asked for. -/
  ports : List UInt16 := (List.range (60999 - 32768 + 1)).map fun i => UInt16.ofNat (32768 + i)
  /-- The addresses of names. -/
  names : List (List Char × List Ip) := []
  /-- Its bound sockets. -/
  bound : List Socket := []
  /-- Whether it lets clients connect. -/
  admits : Bool := true

namespace Host

/-- Whether an address is one of the host's own. -/
def owns (h : Host) (ip : Ip) : Bool :=
  ip.plain.isAny || h.has ip.plain

/-- The ports that are tried when one is asked for. -/
def tried (h : Host) (port : UInt16) : List UInt16 :=
  if port = 0 then h.ports.filter (· ≠ 0) else [port]

/-- Whether a socket can be bound where it is. A port that is assigned is shared with none. -/
def isFree (h : Host) (assigned : Bool) (s : Socket) : Bool :=
  !h.bound.any fun t => s.conflicts t && (assigned || !t.givesWay s)

/-- A socket as it is when bound to an endpoint. -/
def place? (h : Host) (s : Socket) (e : Endpoint) : Option Socket :=
  ((h.tried e.port).map fun port => { s with endpoint := ⟨e.ip, port⟩ }).find?
    (h.isFree (e.port = 0))

/-- Makes a socket of a version. -/
def make (h : Host) (v6 : Bool) : Except SystemError Socket :=
  match h.unmade v6 with
  | some e => .error e
  | none => .ok { endpoint := ⟨if v6 then .any6 else .any4, 0⟩, onlyV6 := v6 && h.onlyV6 }

/-- Does what is asked with a socket. -/
def ask (h : Host) (c : Call) (s : Socket) : Except SystemError (Host × Socket) :=
  match h.refuses s.endpoint.ip.isV6 c with
  | some e => .error e
  | none =>
    match c with
    | .bind e =>
      if !h.owns e.ip then .error .addressUnavailable
      else
        match h.place? s e with
        | none => .error .addressInUse
        | some s => .ok ({ h with bound := s :: h.bound }, s)
    | .listen _ =>
      if h.bound.any fun t => s.conflicts t && t.listening then .error .addressInUse
      else
        let heard := { s with listening := true }
        .ok ({ h with bound := heard :: h.bound.erase s }, heard)
    | c => .ok (h, c.setting s)

/-- Closes a socket. One that is not bound leaves nothing free. -/
def release (h : Host) (s : Socket) : Host :=
  if s.endpoint.port = 0 then h else { h with bound := h.bound.erase s }

/-- The addresses of a name. -/
def resolve (h : Host) (name : List Char) : List Ip :=
  match Ip.ofName? name with
  | some ip => [ip]
  | none => ((h.names.find? (·.1 = name)).map (·.2)).getD []

/-- The socket that a client reaches. -/
def reached (h : Host) (e : Endpoint) : Option Socket :=
  if h.admits then
    h.bound.find? fun s => s.listening && s.endpoint.port = e.port && s.reachedAt e.ip
  else none

end Host

end HttpEcho.Listen
