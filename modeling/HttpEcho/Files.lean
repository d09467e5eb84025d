import HttpEcho.SystemError
import HttpEcho.Text.Utf8

/-! Reading a file by its path.

A path is a list of octets. It leads through directories, and what is at its end must be a file
that holds well-formed text. -/
namespace HttpEcho

/-- Why a file gives no text. -/
inductive FileError where
  | system (e : SystemError)
  /-- The path has a NUL in it. -/
  | nulInPath
  /-- What the file holds is no text. -/
  | notText
  deriving DecidableEq, Repr

namespace FileError

/-- What is said of an error. -/
def message : FileError → String
  | .system e => e.message
  | .nulInPath => "file name contained an unexpected NUL byte"
  | .notText => "stream did not contain valid UTF-8"

/-- All parts of an error, by name. -/
def record : FileError → String
  | .system e => e.record
  | .nulInPath =>
    "Error \x7b kind: InvalidInput, message: \"file name contained an unexpected NUL byte\" \x7d"
  | .notText =>
    "Error \x7b kind: InvalidData, message: \"stream did not contain valid UTF-8\" \x7d"

end FileError

/-- What a name in a directory stands for. -/
inductive FileTree where
  | file (octets : List UInt8)
  | directory (entries : List (List UInt8 × FileTree))

namespace FileTree

/-- The longest name. -/
def maxName : Nat := 255

/-- A path and the octet after it fit into this many octets. -/
def maxPath : Nat := 4096

/-- The names in a path. Nothing between two slashes, and a single dot, lead nowhere else. -/
def names (path : List UInt8) : List (List UInt8) :=
  ((path.splitOn '/'.toNat.toUInt8).filter fun name => name ≠ [] ∧ name ≠ ['.'.toNat.toUInt8])

/-- What a path leads to from `here`, which is inside `above`. Two dots lead one level up. -/
def follow : List (List UInt8) → (above : List FileTree) → (here : FileTree) →
    Except SystemError FileTree
  | [], _, here => .ok here
  | _ :: _, _, .file _ => .error .notDirectory
  | name :: rest, above, .directory entries =>
    if name = ['.'.toNat.toUInt8, '.'.toNat.toUInt8] then
      match above with
      | [] => follow rest [] (.directory entries)
      | up :: further => follow rest further up
    else if maxName < name.length then .error .nameTooLong
    else
      match entries.find? (·.1 = name) with
      | none => .error .notFound
      | some (_, next) => follow rest (.directory entries :: above) next

/-- What a path leads to. After a slash at its end, only a directory will do. -/
def find (root : FileTree) (path : List UInt8) : Except SystemError FileTree := do
  if path = [] then throw .notFound
  if maxPath ≤ path.length then throw .nameTooLong
  let found ← follow (names path) [] root
  match found with
  | .file _ => if path.getLast? = some '/'.toNat.toUInt8 then throw .notDirectory
  | .directory _ => pure ()
  return found

/-- The octets of the file that a path leads to. -/
def read (root : FileTree) (path : List UInt8) : Except FileError (List UInt8) :=
  if 0 ∈ path then .error .nulInPath
  else
    match find root path with
    | .error e => .error (.system e)
    | .ok (.directory _) => .error (.system .isDirectory)
    | .ok (.file octets) => .ok octets

end FileTree

/-- The text that octets must be. -/
def fileText (octets : List UInt8) : Except FileError (List Char) :=
  match Utf8.decode? octets with
  | some text => .ok text
  | none => .error .notText

end HttpEcho
