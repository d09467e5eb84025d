import HttpEcho.Json.Numeral

/-! The tokens of a JSON text, read character by character.

Words and numerals end where their characters end, so a `Lexer` gives such a token only when it
sees what follows it, or the end of the text. Four blanks stand between tokens. In a string every
character from U+0020 on stands for itself except the quote and the backslash, and `\u` escapes
beyond the basic plane come as a high and a low half, in this order. -/
namespace HttpEcho.Json

/-- A token. -/
inductive Token where
  | beginArray
  | endArray
  | beginObject
  | endObject
  | comma
  | colon
  | null
  | boolean (b : Bool)
  | number (n : Numeral)
  | string (s : String)
  deriving DecidableEq, Repr

/-- Where a lexer stands. Characters read are kept the last one first. -/
inductive Lexer where
  /-- Between tokens. -/
  | between
  | word (read : List Char)
  | numeral (read : List Char)
  /-- In a string. -/
  | text (read : List Char)
  /-- After a backslash. -/
  | escape (read : List Char)
  /-- In a `\u` escape: the high half before it, the digits to come after the next, the digits
  so far. -/
  | unit (read : List Char) (high : Option Nat) (after : Nat) (code : Nat)
  /-- After a high half: a backslash must come. -/
  | halfway (read : List Char) (high : Nat)
  /-- After a high half and a backslash: a `u` must come. -/
  | halfwayEscape (read : List Char) (high : Nat)
  deriving DecidableEq, Repr

/-! ### Classes of characters -/

/-- The blanks between tokens. -/
def isBlank (c : Char) : Bool :=
  c = ' ' || c = '\t' || c = '\n' || c = '\r'

/-- The characters of `null`, `true` and `false`, and others that are in no word. -/
def isWordChar (c : Char) : Bool :=
  'a' ≤ c && c ≤ 'z'

/-- The characters of numerals. -/
def isNumeralChar (c : Char) : Bool :=
  c.isDigit || c = '-' || c = '+' || c = '.' || c = 'e' || c = 'E'

/-- The value of a hexadecimal digit of either case. -/
def hexValue? (c : Char) : Option Nat :=
  if c.isDigit then some (c.toNat - '0'.toNat)
  else if 'a' ≤ c ∧ c ≤ 'f' then some (c.toNat - 'a'.toNat + 10)
  else if 'A' ≤ c ∧ c ≤ 'F' then some (c.toNat - 'A'.toNat + 10)
  else none

/-- What a one-letter escape stands for. -/
def escaped? : Char → Option Char
  | '"' => some '"'
  | '\\' => some '\\'
  | '/' => some '/'
  | 'b' => some '\x08'
  | 'f' => some '\x0c'
  | 'n' => some '\n'
  | 'r' => some '\r'
  | 't' => some '\t'
  | _ => none

/-- The word that letters are. -/
def word? (letters : List Char) : Option Token :=
  if letters = ['n', 'u', 'l', 'l'] then some .null
  else if letters = ['t', 'r', 'u', 'e'] then some (.boolean true)
  else if letters = ['f', 'a', 'l', 's', 'e'] then some (.boolean false)
  else none

/-! ### The lexer -/

/-- A lexer between tokens takes a character. -/
def Lexer.start (c : Char) : Option (Lexer × List Token) :=
  if isBlank c then some (.between, [])
  else if c = '[' then some (.between, [.beginArray])
  else if c = ']' then some (.between, [.endArray])
  else if c = '{' then some (.between, [.beginObject])
  else if c = '}' then some (.between, [.endObject])
  else if c = ',' then some (.between, [.comma])
  else if c = ':' then some (.between, [.colon])
  else if c = '"' then some (.text [], [])
  else if c = '-' ∨ c.isDigit then some (.numeral [c], [])
  else if isWordChar c then some (.word [c], [])
  else none

/-- A code unit is complete: a character, or the first half of one. -/
def Lexer.unitRead (read : List Char) (high : Option Nat) (code : Nat) : Option Lexer :=
  match high with
  | none =>
    if code < 0xD800 ∨ 0xE000 ≤ code then some (.text (Char.ofNat code :: read))
    else if code < 0xDC00 then some (.halfway read code)
    else none
  | some high =>
    if 0xDC00 ≤ code ∧ code < 0xE000 then
      some (.text (Char.ofNat ((high - 0xD800) * 0x400 + (code - 0xDC00) + 0x10000) :: read))
    else none

/-- Takes a character. Gives the tokens that it completes. -/
def Lexer.push : Lexer → Char → Option (Lexer × List Token)
  | .between, c => Lexer.start c
  | .word read, c =>
    if isWordChar c then some (.word (c :: read), [])
    else do
      let token ← word? read.reverse
      let (next, tokens) ← Lexer.start c
      some (next, token :: tokens)
  | .numeral read, c =>
    if isNumeralChar c then some (.numeral (c :: read), [])
    else do
      let n ← Numeral.ofChars? read.reverse
      let (next, tokens) ← Lexer.start c
      some (next, .number n :: tokens)
  | .text read, c =>
    if c = '"' then some (.between, [.string (String.ofList read.reverse)])
    else if c = '\\' then some (.escape read, [])
    else if c < ' ' then none
    else some (.text (c :: read), [])
  | .escape read, c =>
    if c = 'u' then some (.unit read none 3 0, [])
    else (escaped? c).map fun e => (.text (e :: read), [])
  | .unit read high after code, c => do
    let code := 16 * code + (← hexValue? c)
    match after with
    | n + 1 => some (.unit read high n code, [])
    | 0 => (Lexer.unitRead read high code).map (·, [])
  | .halfway read high, c => if c = '\\' then some (.halfwayEscape read high, []) else none
  | .halfwayEscape read high, c =>
    if c = 'u' then some (.unit read (some high) 3 0, []) else none

/-- The text ends. -/
def Lexer.finish : Lexer → Option (List Token)
  | .between => some []
  | .word read => (word? read.reverse).map ([·])
  | .numeral read => (Numeral.ofChars? read.reverse).map fun n => [.number n]
  | _ => none

end HttpEcho.Json
