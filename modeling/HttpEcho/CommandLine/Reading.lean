import HttpEcho.CommandLine.Invocation

/-! Reading a command line.

Arguments are taken from left to right. An option's value may be in the same argument or in the
next one, so what was begun is pending until the next argument shows that it is complete; only then
is its value looked at. The first thing that is wrong is the error. -/
namespace HttpEcho.CommandLine

/-! ### Values -/

/-- The values so far. -/
structure Given where
  address : Option String := none
  mode : Option Mode := none
  delayMs : Option Nat := none
  config : Option Argument := none
  logLevel : Option String := none
  deriving DecidableEq, Repr

/-- The largest number of milliseconds that is read. -/
def maxDelay : Nat := UInt64.size - 1

/-- A value that must be text. -/
def textValue (a : Argument) : Except UsageError String :=
  match a.text? with
  | some text => .ok text
  | none => .error .notText

namespace Given

/-- Whether an option was given. -/
def has (g : Given) : Flag → Bool
  | .mode => g.mode.isSome
  | .delayMs => g.delayMs.isSome
  | .config => g.config.isSome
  | .logLevel => g.logLevel.isSome

/-- Reads the value of an option. -/
def put (g : Given) (f : Flag) (value : Argument) : Except UsageError Given :=
  match f with
  | .mode =>
    if value = [] then .error (.missingValue f)
    else
      match value.text?.bind Mode.ofName? with
      | some mode => .ok { g with mode := some mode }
      | none => .error (.unknownValue value.lossy f)
  | .delayMs => do
    let text ← textValue value
    match Unsigned.parse maxDelay text.toList with
    | .ok n => return { g with delayMs := some n }
    | .error e => throw (.notNumber text f e)
  | .config =>
    if value = [] then .error (.missingValue f) else .ok { g with config := some value }
  | .logLevel => do
    return { g with logLevel := some (← textValue value) }

/-- Reads the value of an option that is given only once. -/
def set (g : Given) (f : Flag) (value : Argument) : Except UsageError Given :=
  if g.has f then .error (.repeated f) else g.put f value

/-- What the command line gives, if the address is there. -/
def complete (g : Given) : Except UsageError Invocation :=
  match g.address with
  | none => .error .missingAddress
  | some address =>
    .ok { address, mode := g.mode, delayMs := g.delayMs, config := g.config,
          logLevel := g.logLevel }

end Given

/-! ### Arguments -/

/-- What was begun and is not looked at yet. -/
inductive Pending where
  | none
  /-- An option whose value is to follow. -/
  | awaiting (f : Flag)
  | value (f : Flag) (value : Argument)
  | address (value : Argument)
  deriving DecidableEq, Repr

/-- A command line that is being read. -/
structure Reading where
  given : Given := {}
  pending : Pending := .none
  /-- Two dashes were read. -/
  separated : Bool := false
  deriving DecidableEq, Repr

namespace Reading

/-- Looks at what is pending. -/
def settle (r : Reading) : Except UsageError Reading := do
  let given ← match r.pending with
    | .none => pure r.given
    | .awaiting f => throw (.missingValue f)
    | .value f value => r.given.set f value
    | .address value => pure { r.given with address := some (← textValue value) }
  return { r with given, pending := .none }

/-- Whether the address was read. -/
def hasAddress (r : Reading) : Bool :=
  r.given.address.isSome || match r.pending with
    | .address _ => true
    | _ => false

/-- Takes an argument that is no option. -/
def takePlain (r : Reading) (a : Argument) : Except UsageError Reading := do
  if r.hasAddress then throw (.unknownArgument a.lossy)
  return { ← r.settle with pending := .address a }

/-- Takes an option, with its value if that is in the same argument. -/
def takeFlag (r : Reading) (f : Flag) (value : Option Argument) : Except UsageError Reading := do
  let r ← r.settle
  match value with
  | none => return { r with pending := .awaiting f }
  | some value => return { r with given := ← r.given.set f value }

/-- Gives help, if nothing before is wrong. -/
def takeHelp (r : Reading) (h : Help) : Except UsageError Reading := do
  let _ ← r.settle
  throw (.help h)

/-- Takes an option by its name. -/
def takeNamed (r : Reading) (name : Argument) (value : Option Argument) :
    Except UsageError Reading :=
  match name.text?.bind Flag.ofName? with
  | some f => r.takeFlag f value
  | none =>
    if name = Argument.ofText "help" then
      match value with
      | none => r.takeHelp .long
      | some value => .error (.helpWithValue value.lossy)
    else .error (.unknownArgument ("--" ++ name.lossy))

/-- The value right after an option's letter. An equals sign may stand before it. -/
def attached : Argument → Option Argument
  | [] => none
  | b :: rest => if b = Argument.equals then some rest else some (b :: rest)

/-- What is said of a letter that is no option: the letter, or everything where no character
begins. -/
def unknownLetter (a : Argument) : String :=
  match Utf8.decodeLossy a with
  | c :: rest =>
    if (Utf8.encode [c]).isPrefixOf a then String.ofList ['-', c]
    else String.ofList ('-' :: c :: rest)
  | [] => "-"

/-- Takes an option by its letter. -/
def takeLettered (r : Reading) (first : UInt8) (rest : Argument) : Except UsageError Reading :=
  let letter := Char.ofNat first.toNat
  match Flag.ofLetter? letter with
  | some f => r.takeFlag f (attached rest)
  | none =>
    if letter = 'h' then r.takeHelp .short
    else .error (.unknownArgument (unknownLetter (first :: rest)))

/-- Takes an argument. -/
def take (r : Reading) (a : Argument) : Except UsageError Reading :=
  if r.separated then r.takePlain a
  else
    match Word.ofArgument a with
    | .separator => .ok { r with separated := true }
    | .named name value => r.takeNamed name value
    | .lettered first rest => r.takeLettered first rest
    | .plain a =>
      match r.pending with
      | .awaiting f => .ok { r with pending := .value f a }
      | _ => r.takePlain a

end Reading

/-- What a command line gives. -/
def parse (arguments : List Argument) : Except UsageError Invocation := do
  let r ← arguments.foldlM Reading.take {}
  (← r.settle).given.complete

end HttpEcho.CommandLine
