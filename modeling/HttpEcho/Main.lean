import HttpEcho.Http.Wire.Date
import HttpEcho.Http.Wire.Session
import HttpEcho.Program
import Std.Async.DNS
import Std.Async.Signal
import Std.Async.TCP
import Std.Async.Timer
import Std.Sync.CancellationToken

/-! The program as it runs.

Here the decisions of the other modules meet the system: arguments and files are read, sockets are
listened on, and the actions of sessions are carried out. -/
namespace HttpEcho.Running
open Std.Async
open Std.Async.TCP.Socket (Server Client)
open Std (CancellationToken)
open Std.Net (IPv4Addr IPv6Addr IPAddr SocketAddress)
open Http.Wire (Session)

/-! ### What the system says -/

/-- The number and the text of a failed call. Some calls give the number below zero. -/
def callError : IO.Error → UInt32 × String
  | .noFileOrDirectory _ code text | .interrupted _ code text | .alreadyExists _ code text
  | .invalidArgument _ code text | .permissionDenied _ code text
  | .resourceExhausted _ code text | .inappropriateType _ code text | .noSuchThing _ code text
  | .otherError code text | .resourceBusy code text | .resourceVanished code text
  | .unsupportedOperation code text | .hardwareFault code text
  | .unsatisfiedConstraints code text | .illegalOperation code text | .protocolError code text
  | .timeExpired code text => (code, text)
  | .unexpectedEof => (0, "unexpected end of file")
  | .userError text => (0, text)

/-- The cause of a failed call. -/
def systemErrorOf (e : IO.Error) : SystemError :=
  let (code, text) := callError e
  .ofCode (min code (0 - code)).toNat text

/-- What a file holds. -/
def readFile (path : List UInt8) : IO (Except FileError (List UInt8)) := do
  if 0 ∈ path then return .error .nulInPath
  match CommandLine.Argument.text? path with
  | none => return .error (.system .notFound)
  | some path =>
    try
      return .ok (← IO.FS.readBinFile path).toList
    catch e => return .error (.system (systemErrorOf e))

/-- The date of now. -/
def today : IO String := do
  let now ← Std.Time.Timestamp.now
  return Http.Wire.dateText now.toSecondsSinceUnixEpoch.val.toNat

/-! ### Sockets -/

/-- An endpoint as the system takes it. -/
def socketAddress (e : Listen.Endpoint) : SocketAddress :=
  match e.ip with
  | .v4 bits =>
    match Listen.Ip.octets bits with
    | [a, b, c, d] => .v4 ⟨.ofParts a.toUInt8 b.toUInt8 c.toUInt8 d.toUInt8, e.port⟩
    | _ => .v4 ⟨.ofParts 0 0 0 0, e.port⟩
  | .v6 bits =>
    match (Listen.Ip.groups bits).map Nat.toUInt16 with
    | [a, b, c, d, p, q, r, s] => .v6 ⟨.ofParts a b c d p q r s, e.port⟩
    | _ => .v6 ⟨.ofParts 0 0 0 0 0 0 0 0, e.port⟩

/-- An address of the system. -/
def ipOf : IPAddr → Option Listen.Ip
  | .v4 a => (Listen.Ip.v4? a.toString.toList).map .v4
  | .v6 a => (Listen.Ip.v6? a.toString.toList).map .v6

/-- Makes a socket. The system makes it for a version when it is bound. -/
def make : IO (Except SystemError Server) := do
  try
    return .ok (← Server.mk)
  catch e => return .error (systemErrorOf e)

/-- Does what is asked with a socket. Such sockets are set up as they are to be when they are bound,
and are watched from then on. -/
def ask (c : Listen.Call) (server : Server) : IO (Except SystemError Server) := do
  try
    match c with
    | .bind e => server.bind (socketAddress e)
    | .listen backlog => server.listen backlog.toUInt32
    | .onlyV6 _ | .shareAddress | .nonblocking | .watch => pure ()
    return .ok server
  catch e => return .error (systemErrorOf e)

/-- The endpoint that a server listens at. -/
def endpointOf (server : Server) : IO Listen.Endpoint := do
  let address ← server.getSockName
  return ⟨(ipOf address.ipAddr).getD .any4, address.port⟩

/-- The addresses of a name. -/
def resolve (name : List Char) : IO (List Listen.Ip) := do
  match Listen.Ip.ofName? name with
  | some ip => return [ip]
  | none =>
    try
      let found ← (DNS.getAddrInfo (String.ofList name) "").block
      return found.toList.filterMap ipOf
    catch _ => return []

/-- The sockets of the system. -/
def sockets : Listen.Sockets IO Server where
  make _ := make
  ask := ask
  -- A socket that nothing holds is closed.
  release _ := pure ()
  resolve := resolve
  endpoint := endpointOf

/-! ### Connections -/

/-- What came on a connection. -/
inductive Arrived where
  | octets (bytes : ByteArray)
  | nothingMore
  /-- The service is to end. -/
  | stop

/-- Waits for what comes. A session without a request also ends with the service. -/
def receive (client : Client) (stop : CancellationToken) (s : Session) : Async Arrived := do
  let size : UInt64 := 65536
  let come (got : Option ByteArray) : Async Arrived :=
    pure (match got with
      | some bytes => .octets bytes
      | none => .nothingMore)
  if s.idle && !s.draining then
    Selectable.one #[
      .case (client.recvSelector size) come,
      .case stop.selector fun _ => pure .stop]
  else come (← client.recv? size)

/-- Carries out what a session says. -/
def converse (echo : Http.Echo) (log : Log.Event → IO Unit) (stop : CancellationToken)
    (client : Client) : Async Unit := do
  let mut session : Session := { echo }
  let mut here := true
  while here do
    if ← stop.isCancelled then session := session.drain
    let (after, action) := session.next (← today)
    session := after
    match action with
    | .close => here := false
    | .wait ms => sleep (.ofNat ms)
    | .send octets events =>
      for e in events do log e
      client.send ⟨octets.toArray⟩
    | .receive =>
      match ← receive client stop session with
      | .octets bytes => session := session.receive bytes.toList
      | .nothingMore => session := session.finish
      | .stop => session := session.drain
  client.shutdown

/-- A connection from its start to its end, whatever that is. -/
def attend (echo : Http.Echo) (log : Log.Event → IO Unit) (stop : CancellationToken)
    (client : Client) : Async Unit := do
  try converse echo log stop client
  catch _ => pure ()

/-- Accepts connections until the service is to end, and then waits for those there are. -/
def accept (echo : Http.Echo) (log : Log.Event → IO Unit) (stop : CancellationToken)
    (server : Server) : Async Unit := do
  let mut tasks : Array (AsyncTask Unit) := #[]
  let mut serving := true
  while serving do
    let client ← Selectable.one #[
      .case server.acceptSelector fun client => pure (some client),
      .case stop.selector fun _ => pure none]
    match client with
    | some client =>
      let task ← async (attend echo log stop client)
      tasks := (← tasks.filterM fun t => return !(← IO.hasFinished t)).push task
    | none => serving := false
  for task in tasks do await task

/-! ### The program -/

/-- Waits for a signal that asks the program to stop. A second one does nothing more. -/
def stopSignal : Async Log.Signal := do
  let interrupt ← Signal.Waiter.mk .sigint true
  let terminate ← Signal.Waiter.mk .sigterm true
  let first ← Selectable.one #[
    .case interrupt.selector fun _ => pure Log.Signal.interrupt,
    .case terminate.selector fun _ => pure Log.Signal.terminate]
  for waiter in [interrupt, terminate] do
    let _ ← waiter.wait
  return first

/-- Serves until a signal comes. -/
def serve (echo : Http.Echo) (log : Log.Event → IO Unit) (server : Server) :
    IO (Log.Signal × IO Unit) := do
  let stop ← CancellationToken.new
  let task ← (accept echo log stop server).toIO
  let signal ← stopSignal.block
  return (signal, do stop.cancel; task.block)

/-- The system that the program runs on. -/
def system : System IO Server where
  sockets := sockets
  readFile := readFile
  directives := IO.getEnv "RUST_LOG"
  print text := do
    IO.print text
    (← IO.getStdout).flush
  printError text := IO.eprint text
  serve := serve

end HttpEcho.Running

/-- Runs the program with the arguments of the command line. -/
def main (arguments : List String) : IO UInt32 := do
  let status ← HttpEcho.Program.run HttpEcho.Running.system
    (arguments.map HttpEcho.CommandLine.Argument.ofText)
  return status.toUInt32
