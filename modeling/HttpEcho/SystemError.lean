/-! What the system answers when it refuses something. -/
namespace HttpEcho

/-- Why the system refuses. -/
inductive SystemError where
  | notFound
  | denied
  | notDirectory
  | isDirectory
  | nameTooLong
  | addressInUse
  | addressUnavailable
  | familyUnavailable
  | other (code : Nat) (text : String)
  deriving DecidableEq, Repr

namespace SystemError

/-- The number of an error. -/
def code : SystemError → Nat
  | .notFound => 2
  | .denied => 13
  | .notDirectory => 20
  | .isDirectory => 21
  | .nameTooLong => 36
  | .familyUnavailable => 97
  | .addressInUse => 98
  | .addressUnavailable => 99
  | .other code _ => code

/-- The error with a number. `text` is said of one that has no name here. -/
def ofCode (code : Nat) (text : String) : SystemError :=
  match code with
  | 2 => .notFound
  | 13 => .denied
  | 20 => .notDirectory
  | 21 => .isDirectory
  | 36 => .nameTooLong
  | 97 => .familyUnavailable
  | 98 => .addressInUse
  | 99 => .addressUnavailable
  | code => .other code text

/-- The kind of an error. -/
def kind : SystemError → String
  | .notFound => "NotFound"
  | .denied => "PermissionDenied"
  | .notDirectory => "NotADirectory"
  | .isDirectory => "IsADirectory"
  | .nameTooLong => "InvalidFilename"
  | .addressInUse => "AddrInUse"
  | .addressUnavailable => "AddrNotAvailable"
  | .familyUnavailable | .other .. => "Uncategorized"

/-- What is said of an error. -/
def text : SystemError → String
  | .notFound => "No such file or directory"
  | .denied => "Permission denied"
  | .notDirectory => "Not a directory"
  | .isDirectory => "Is a directory"
  | .nameTooLong => "File name too long"
  | .familyUnavailable => "Address family not supported by protocol"
  | .addressInUse => "Address already in use"
  | .addressUnavailable => "Cannot assign requested address"
  | .other _ text => text

/-- The text and the number. -/
def message (e : SystemError) : String :=
  e.text ++ " (os error " ++ toString e.code ++ ")"

/-- All parts of an error, by name. -/
def record (e : SystemError) : String :=
  "Os \x7b code: " ++ toString e.code ++ ", kind: " ++ e.kind ++ ", message: \"" ++ e.text ++
    "\" \x7d"

end SystemError

end HttpEcho
