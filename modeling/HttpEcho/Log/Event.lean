/-! What the program logs.

An `Event` is something that happened; its level, its place in the program, its message and its
fields follow from it. -/
namespace HttpEcho.Log

/-- How much an event matters. -/
inductive Level where
  | trace
  | debug
  | info
  | warn
  | error
  deriving DecidableEq, Repr

/-- The level's name in capitals. -/
def Level.label : Level → String
  | .trace => "TRACE"
  | .debug => "DEBUG"
  | .info => "INFO"
  | .warn => "WARN"
  | .error => "ERROR"

/-- How much detail a level asks for: each level includes those below it. -/
def Level.detail : Level → Nat
  | .error => 1
  | .warn => 2
  | .info => 3
  | .debug => 4
  | .trace => 5

/-- A signal that asks the program to stop. -/
inductive Signal where
  | interrupt
  | terminate
  deriving DecidableEq, Repr

/-- The signal's name. -/
def Signal.name : Signal → String
  | .interrupt => "SIGINT"
  | .terminate => "SIGTERM"

/-- What happened. -/
inductive Event where
  | bodyNotJson (reason : String) (length : Nat)
  | bodyUnread (error : String) (limit : Nat)
  | configurationLoaded (address mode : String) (delayMs maxBodyBytes : Nat)
  | startupFailed (error : String)
  | dualStackFailed (error : String) (port : Nat)
  | listenerBound (address : String)
  | serverStarting (address mode delay : String)
  | signalReceived (signal : Signal)
  | stopTriggered (notified : Nat)
  | draining
  | serverStopped
  | shutdownComplete
  deriving DecidableEq, Repr

/-- The level of an event. -/
def Event.level : Event → Level
  | .bodyNotJson .. | .dualStackFailed .. | .stopTriggered .. => .debug
  | .bodyUnread .. => .warn
  | .startupFailed .. => .error
  | _ => .info

/-- The part of the program that an event belongs to. -/
def Event.target : Event → String
  | .bodyNotJson .. => "echo_server::transform::json"
  | .bodyUnread .. => "echo_server::http::echo"
  | .configurationLoaded .. | .startupFailed .. | .shutdownComplete => "echo_server"
  | .dualStackFailed .. | .listenerBound .. => "echo_server::net::listener"
  | .serverStarting .. | .draining | .serverStopped => "echo_server::http::server"
  | .signalReceived .. => "echo_server::lifecycle::signals"
  | .stopTriggered .. => "echo_server::lifecycle::shutdown"

/-- The message of an event. -/
def Event.message : Event → String
  | .bodyNotJson .. => "Body is not JSON, echoing null"
  | .bodyUnread .. => "Failed to read request body, treating as empty"
  | .configurationLoaded .. => "Configuration loaded"
  | .startupFailed .. => "Startup failed"
  | .dualStackFailed .. => "Dual-stack bind failed, falling back to IPv4"
  | .listenerBound .. => "Listener bound"
  | .serverStarting .. => "HTTP server starting"
  | .signalReceived s => "Received " ++ s.name
  | .stopTriggered .. => "Shutdown triggered"
  | .draining => "Shutdown signal received, draining connections"
  | .serverStopped => "HTTP server stopped"
  | .shutdownComplete => "Shutdown complete"

/-- The fields of an event, in order. -/
def Event.fields : Event → List (String × String)
  | .bodyNotJson reason length => [("reason", reason), ("body_len", toString length)]
  | .bodyUnread error limit => [("error", error), ("limit", toString limit)]
  | .configurationLoaded address mode delayMs maxBodyBytes =>
    [("bind_address", address), ("mode", mode), ("delay_ms", toString delayMs),
      ("max_body_bytes", toString maxBodyBytes)]
  | .startupFailed error => [("error", error)]
  | .dualStackFailed error port => [("error", error), ("port", toString port)]
  | .listenerBound address => [("address", address)]
  | .serverStarting address mode delay =>
    [("address", address), ("mode", mode), ("delay", delay)]
  | .stopTriggered notified => [("notified", toString notified)]
  | _ => []

/-- The names of an event's fields. Its message is one of them. -/
def Event.fieldNames (e : Event) : List String :=
  "message" :: e.fields.map (·.1)

/-- The line of an event: its level, its target, its message and its fields. -/
def Event.line (e : Event) : String :=
  let fields := e.fields.map fun (name, value) => " " ++ name ++ "=" ++ value
  e.level.label ++ " " ++ e.target ++ ": " ++ e.message ++ String.join fields

end HttpEcho.Log
