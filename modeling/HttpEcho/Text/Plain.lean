/-! A text without what only a terminal understands.

An escape character begins a control sequence, and the characters after it decide how long it is.
Sequences and control characters are left out; blanks that are controls stay, and end a sequence
that they interrupt. -/
namespace HttpEcho.Text

/-- What the characters before have begun. -/
inductive Terminal where
  | ground
  /-- After an escape character. -/
  | escape
  /-- In an escape of more than two characters. -/
  | intermediate
  /-- In a sequence with parameters. -/
  | parameters
  /-- In a command's text, which a bell also ends if `bell`. -/
  | command (bell : Bool)
  deriving DecidableEq, Repr

namespace Terminal

/-- Control characters that are blanks. -/
def isControlBlank (c : Char) : Bool :=
  c = '\t' || c = '\n' || c = '\x0C' || c = '\r'

/-- A visible ASCII character from a first one on. -/
def isFrom (first c : Char) : Bool :=
  first ≤ c && c ≤ '~'

/-- What a character after an escape character begins. -/
def afterEscape (c : Char) : Terminal :=
  if c = '[' then .parameters
  else if c = ']' then .command true
  else if c = 'P' ∨ c = 'X' ∨ c = '^' ∨ c = '_' then .command false
  else if isFrom '0' c then .ground
  else if isFrom ' ' c then .intermediate
  else .escape

/-- Takes a character: what is begun after it, and whether the character stays. -/
def next (t : Terminal) (c : Char) : Terminal × Bool :=
  if c = '\x1B' then (.escape, false)
  else if c = '\x18' ∨ c = '\x1A' then (.ground, false)
  else
    match t with
    | .ground => (.ground, (' ' ≤ c && c ≠ '\x7F') || isControlBlank c)
    | .command bell => (if bell ∧ c = '\x07' then .ground else t, false)
    | .escape => if isControlBlank c then (.ground, true) else (afterEscape c, false)
    | .intermediate =>
      if isControlBlank c then (.ground, true)
      else (if isFrom '0' c then .ground else .intermediate, false)
    | .parameters =>
      if isControlBlank c then (.ground, true)
      else (if isFrom '@' c then .ground else .parameters, false)

/-- What stays of a text. -/
def keep (t : Terminal) : List Char → List Char
  | [] => []
  | c :: rest =>
    let (t, stays) := t.next c
    if stays then c :: t.keep rest else t.keep rest

end Terminal

/-- A text without control characters and sequences. -/
def plain (s : String) : String :=
  String.ofList (Terminal.ground.keep s.toList)

end HttpEcho.Text
