/-! Reading a text from the left.

A reader takes a text and gives what it read and what is left, or refuses. One refusal is like
another: nothing says where or why. -/
namespace HttpEcho.Text

/-- Reads something from the front of a text. -/
abbrev Reader := StateT (List Char) Option

namespace Reader

/-- The next character, which stays. -/
def peek : Reader (Option Char) := fun text => some (text.head?, text)

/-- Whether the text is at its end. -/
def atEnd : Reader Bool := fun text => some (text.isEmpty, text)

/-- The next character, if it is of a class. -/
def satisfy (p : Char → Bool) : Reader Char
  | c :: rest => if p c then some (c, rest) else none
  | [] => none

/-- Takes the next character if it is the given one, and says whether it was. -/
def accept (c : Char) : Reader Bool
  | d :: rest => if d = c then some (true, rest) else some (false, d :: rest)
  | [] => some (false, [])

/-- Takes the next character, which must be the given one. -/
def char (c : Char) : Reader Unit := do
  let _ ← satisfy (· = c)

/-- Takes a word that the text must begin with. -/
def word (w : String) : Reader Unit := w.toList.forM char

/-- The longest beginning of one class. -/
def takeWhile (p : Char → Bool) : Reader (List Char) := fun text =>
  some (text.takeWhile p, text.dropWhile p)

/-- So many characters of one class. -/
def exactly (p : Char → Bool) : Nat → Reader (List Char)
  | 0 => pure []
  | n + 1 => do
    let c ← satisfy p
    return c :: (← exactly p n)

/-- Items after `done` until one is none; at most so many. -/
def manyWithin (item : Reader (Option α)) : Nat → (done : List α) → Reader (List α)
  | 0, _, _ => none
  | n + 1, done, text =>
    match item text with
    | none => none
    | some (none, rest) => some (done.reverse, rest)
    | some (some a, rest) => manyWithin item n (a :: done) rest

/-- Items until one is none. An item takes at least one character, so a text has no more items
than characters. -/
def many (item : Reader (Option α)) : Reader (List α) := fun text =>
  manyWithin item (text.length + 1) [] text

/-- What a reader reads from the whole of a text. -/
def whole? (r : Reader α) (text : List Char) : Option α :=
  match r text with
  | some (a, []) => some a
  | _ => none

end Reader

end HttpEcho.Text
