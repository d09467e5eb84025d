import HttpEcho.CommandLine.Reading
import HttpEcho.Http.Echo
import HttpEcho.Listen.Bind
import HttpEcho.Log.Filter
import HttpEcho.Text.Duration

/-! The program from its start to its end.

The program reads its command line and its settings, listens, serves until a signal asks it to
stop, and ends. What goes wrong before it serves is its end. What it needs of the system around it
is a `System`; `Machine` is one that only remembers what was done. -/
namespace HttpEcho

/-! ### What can go wrong -/

/-- Why the program does not serve. -/
inductive Failure where
  | usage (e : CommandLine.UsageError)
  | settings (e : Settings.Error)
  | listen (e : Listen.ListenError)

/-- How the program ends: its status, and what it has written to its two outputs. -/
structure Ending where
  status : Nat
  output : String
  errors : String
  deriving DecidableEq, Repr

namespace Failure

/-- What follows a usage error. -/
def hint : String := "\n\nFor more information, try '--help'.\n"

/-- The end that a failure is. Help is what was asked for, so it is no error. -/
def ending : Failure → Ending
  | .usage (.help h) => ⟨0, h.text, ""⟩
  | .usage e => ⟨2, "", e.message ++ hint⟩
  | .settings e => ⟨1, "", "Error: " ++ e.record ++ "\n"⟩
  | .listen e => ⟨1, "", "Error: " ++ e.record ++ "\n"⟩

end Failure

/-! ### The system around it -/

/-- What the program needs of the system around it. -/
structure System (m : Type → Type) (σ : Type) where
  sockets : Listen.Sockets m σ
  /-- The octets of a file. -/
  readFile : List UInt8 → m (Except FileError (List UInt8))
  /-- The directives for the log that the environment has. -/
  directives : m (Option String)
  /-- Writes to the output. -/
  print : String → m Unit
  /-- Writes to the output for errors. -/
  printError : String → m Unit
  /-- Serves on a socket until a signal comes. With the signal comes a way to end the service,
  which answers what it has in hand. -/
  serve : Http.Echo → (Log.Event → m Unit) → σ → m (Log.Signal × m Unit)

/-! ### The run -/

namespace Program
variable {m : Type → Type} {σ : Type} [Monad m] (sys : System m σ)

/-- The settings to run with. -/
def settings (arguments : List CommandLine.Argument) : m (Except Failure Settings) := do
  match CommandLine.parse arguments with
  | .error e => return .error (.usage e)
  | .ok invocation =>
    let file ← match invocation.config with
      | some path => Settings.ofFile <$> sys.readFile path
      | none => pure (.ok {})
    return (invocation.settings file).mapError .settings

/-- Writes the lines of the events that a filter shows. -/
def log (f : Log.Filter) (e : Log.Event) : m Unit :=
  if f.shows e then sys.print (e.line ++ "\n") else pure ()

/-- Writes what a failure says, and gives the status. -/
def fail (f : Failure) : m Nat := do
  sys.print f.ending.output
  sys.printError f.ending.errors
  return f.ending.status

/-- What is logged when the settings are known. -/
def loaded (s : Settings) : Log.Event :=
  .configurationLoaded s.bindAddress s.mode.name s.delayMs s.maxBodyBytes

/-- What is logged when the service starts. -/
def starting (t : Transform) (address : String) : Log.Event :=
  .serverStarting address t.mode.name (Text.duration t.delayMs)

/-- Serves, and ends when a signal comes. The service alone waits for the stop. -/
def serve (f : Log.Filter) (s : Settings) (socket : σ) : m Nat := do
  let echo := Http.Echo.ofSettings s
  log sys f (starting echo.transform (← sys.sockets.endpoint socket).text)
  let (signal, drain) ← sys.serve echo (log sys f) socket
  log sys f (.signalReceived signal)
  log sys f (.stopTriggered 1)
  log sys f .draining
  drain
  log sys f .serverStopped
  log sys f .shutdownComplete
  return 0

/-- Runs the program, and gives its status. -/
def run (arguments : List CommandLine.Argument) : m Nat := do
  match ← settings sys arguments with
  | .error failure => fail sys failure
  | .ok s =>
    let f := Log.Filter.choose (← sys.directives) s.logLevel
    log sys f (loaded s)
    match ← sys.sockets.bind (log sys f) s.bindAddress with
    | .error e =>
      log sys f (.startupFailed e.message)
      fail sys (.listen e)
    | .ok socket => serve sys f s socket

end Program

/-! ### A system that remembers -/

/-- A machine with a host, and what was written on it. -/
structure Machine where
  host : Listen.Host
  output : String := ""
  errors : String := ""

namespace Machine

/-- Does something to the host. -/
def onHost (act : StateM Listen.Host α) : StateM Machine α := fun machine =>
  let (a, host) := act.run machine.host
  (a, { machine with host })

/-- The system of a machine with the given files and directives, on which a signal comes at once. -/
def system (files : FileTree) (directives : Option String) (signal : Log.Signal) :
    System (StateM Machine) Listen.Socket where
  sockets := {
    make := fun v6 => onHost (Listen.Host.sockets.make v6)
    ask := fun c s => onHost (Listen.Host.sockets.ask c s)
    release := fun s => onHost (Listen.Host.sockets.release s)
    resolve := fun name => onHost (Listen.Host.sockets.resolve name)
    endpoint := fun s => onHost (Listen.Host.sockets.endpoint s) }
  readFile path := pure (files.read path)
  directives := pure directives
  print text := modify fun machine => { machine with output := machine.output ++ text }
  printError text := modify fun machine => { machine with errors := machine.errors ++ text }
  serve _ _ _ := pure (signal, pure ())

/-- A run of the program from its start to its end. -/
def run (host : Listen.Host) (files : FileTree) (directives : Option String)
    (signal : Log.Signal) (arguments : List CommandLine.Argument) : Ending :=
  let (status, machine) :=
    (Program.run (system files directives signal) arguments).run { host }
  ⟨status, machine.output, machine.errors⟩

end Machine

end HttpEcho
