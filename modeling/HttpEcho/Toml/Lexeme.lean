import HttpEcho.Text.Reader

/-! The smallest parts of a TOML document: blanks, comments, strings and keys. -/
namespace HttpEcho.Toml
open Text (Reader)
open Text.Reader

/-! ### Between the parts -/

/-- Space and tab. -/
def isSpace (c : Char) : Bool := c = ' ' || c = '\t'

/-- What may stand in comments and strings: everything but the controls. A tab may. -/
def isTextChar (c : Char) : Bool :=
  c = '\t' || (' ' ≤ c && c ≤ '~') || '\x80' ≤ c

/-- Takes spaces and tabs. -/
def spaces : Reader Unit := do
  let _ ← Reader.takeWhile isSpace

/-- The end of a line. A carriage return counts only before a line feed. -/
def newline : Reader Unit
  | '\n' :: rest => some ((), rest)
  | '\r' :: '\n' :: rest => some ((), rest)
  | _ => none

/-- Takes a comment if there is one, up to the end of its line. -/
def comment : Reader Unit := do
  if ← accept '#' then
    let _ ← Reader.takeWhile isTextChar

/-- What may follow on a line: blanks and a comment. -/
def lineEnd : Reader Unit := do
  spaces
  comment
  if ← atEnd then return
  newline

/-- Leaves out spaces and line ends. -/
def dropSpace : List Char → List Char
  | ' ' :: rest => dropSpace rest
  | '\t' :: rest => dropSpace rest
  | '\n' :: rest => dropSpace rest
  | '\r' :: '\n' :: rest => dropSpace rest
  | text => text

/-- One line of what may stand between the items of an array: blanks, and a comment that ends. -/
def gapLine : Reader (Option Unit) := do
  modify dropSpace
  if (← peek) = some '#' then
    comment
    newline
    return some ()
  else return none

/-- What may stand between the items of an array. -/
def gap : Reader Unit := do
  let _ ← many gapLine

/-! ### Strings -/

/-- A hexadecimal digit. -/
def hexDigit? (c : Char) : Option Nat :=
  if c.isDigit then some (c.toNat - '0'.toNat)
  else if 'a' ≤ c ∧ c ≤ 'f' then some (c.toNat - 'a'.toNat + 10)
  else if 'A' ≤ c ∧ c ≤ 'F' then some (c.toNat - 'A'.toNat + 10)
  else none

/-- The number that digits are in a base. -/
def ofDigits (base : Nat) (digits : List Char) : Nat :=
  digits.foldl (fun n c => base * n + (hexDigit? c).getD 0) 0

/-- A character by its number, in so many hexadecimal digits. -/
def numbered (width : Nat) : Reader Char := do
  let n := ofDigits 16 (← exactly (hexDigit? · |>.isSome) width)
  if n.isValidChar then return Char.ofNat n else failure

/-- What stands after a backslash. -/
def escape : Reader Char := do
  match ← satisfy fun _ => true with
  | 'b' => return '\x08'
  | 't' => return '\t'
  | 'n' => return '\n'
  | 'f' => return '\x0C'
  | 'r' => return '\r'
  | '"' => return '"'
  | '\\' => return '\\'
  | 'u' => numbered 4
  | 'U' => numbered 8
  | _ => failure

/-- A part of a string in one line, after its opening quote. With `escapes`, a backslash begins an
escape. -/
def shortPart (quote : Char) (escapes : Bool) : Reader (Option Char) := do
  let c ← satisfy isTextChar
  if c = quote then return none
  else if c = '\\' ∧ escapes then return some (← escape)
  else return some c

/-- A string in one line. -/
def shortString (quote : Char) (escapes : Bool) : Reader String := do
  char quote
  return String.ofList (← many (shortPart quote escapes))

/-- A part of a string over several lines. Up to two quotes stand for themselves, also right before
the three that end the string. After a backslash at the end of a line, all blanks are left out. -/
def longPart (quote : Char) (escapes : Bool) : Reader (Option (List Char)) := do
  match ← peek with
  | some '\n' | some '\r' =>
    newline
    return some ['\n']
  | _ =>
    let quotes ← Reader.takeWhile (· = quote)
    match quotes.length with
    | 0 =>
      let c ← satisfy isTextChar
      if c = '\\' ∧ escapes then
        if (← peek).any fun d => isSpace d || d = '\n' || d = '\r' then
          spaces
          newline
          modify dropSpace
          return some []
        else return some [← escape]
      else return some [c]
    | 3 => return none
    | 1 | 2 => return some quotes
    | 4 | 5 =>
      modify ([quote, quote, quote] ++ ·)
      return some (quotes.drop 3)
    | _ => failure

/-- A string over several lines. A line end right after the opening quotes is not part of it. -/
def longString (quote : Char) (escapes : Bool) : Reader String := do
  let _ ← exactly (· = quote) 3
  let _ ← optional newline
  return String.ofList (← many (longPart quote escapes)).flatten

/-- A string of any of the four kinds. -/
def string : Reader String :=
  longString '"' true <|> shortString '"' true <|> longString '\'' false <|>
    shortString '\'' false

/-! ### Keys -/

/-- What may stand in a key without quotes. -/
def isBareChar (c : Char) : Bool :=
  c.isAlphanum || c = '-' || c = '_'

/-- One key. -/
def simpleKey : Reader String := do
  match ← peek with
  | some '"' => shortString '"' true
  | some '\'' => shortString '\'' false
  | _ =>
    match ← Reader.takeWhile isBareChar with
    | [] => failure
    | name => return String.ofList name

/-- One key and the blanks around it. -/
def spacedKey : Reader String := do
  spaces
  let name ← simpleKey
  spaces
  return name

/-- The most keys that dots may join. -/
def maxKeys : Nat := 79

/-- A path to an entry: the tables on the way, and the entry's own key. -/
structure Path where
  tables : List String
  name : String

/-- Keys joined by dots. -/
def path : Reader Path := do
  let first ← spacedKey
  let rest ← many do
    if ← accept '.' then return some (← spacedKey) else return none
  let keys := first :: rest
  if keys.length ≤ maxKeys then
    return ⟨keys.dropLast, keys.getLast (by simp [keys])⟩
  else failure

end HttpEcho.Toml
