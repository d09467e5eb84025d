import HttpEcho.Toml.Lexeme
import HttpEcho.Toml.Value

/-! Numbers, truth values, dates and times in a TOML document. -/
namespace HttpEcho.Toml
open Text (Reader)
open Text.Reader

/-! ### Digits and signs -/

/-- Digits of a base. Single underscores may stand between them. -/
def digitRun (isDigit : Char → Bool) : Reader (List Char) := do
  let first ← satisfy isDigit
  let rest ← many do
    match ← peek with
    | some '_' =>
      char '_'
      return some (← satisfy isDigit)
    | some c => if isDigit c then return some (← satisfy isDigit) else return none
    | none => return none
  return first :: rest

/-- A sign, if there is one: whether it is a minus. -/
def sign : Reader Bool := do
  match ← peek with
  | some '-' => char '-'; return true
  | some '+' => char '+'; return false
  | _ => return false

/-- A decimal number without zeros in front. -/
def wholePart : Reader (List Char) := do
  if ← accept '0' then return ['0'] else digitRun Char.isDigit

/-! ### Numbers -/

/-- An integer must fit into 64 bits, one of which is the sign. -/
def integerOf (negative : Bool) (n : Nat) : Reader Value :=
  let i : Int := if negative then -n else n
  if -0x8000000000000000 ≤ i ∧ i < 0x8000000000000000 then return .integer i else failure

/-- An integer in another base, after its mark. It has no sign. -/
def basedInteger (base : Nat) (mark : String) : Reader Value := do
  word mark
  let digits ← digitRun fun c => (hexDigit? c).any (· < base)
  integerOf false (ofDigits base digits)

/-- An integer. -/
def integer : Reader Value :=
  basedInteger 16 "0x" <|> basedInteger 8 "0o" <|> basedInteger 2 "0b" <|> do
    let negative ← sign
    integerOf negative (ofDigits 10 (← wholePart))

/-- The digits after a point. -/
def fraction : Reader (List Char) := do
  char '.'
  digitRun Char.isDigit

/-- The power of ten after an `e`. -/
def exponent : Reader Int := do
  let _ ← satisfy fun c => c = 'e' || c = 'E'
  let negative ← sign
  let n : Int := ofDigits 10 (← digitRun Char.isDigit)
  return if negative then -n else n

/-- A number with a fraction or an exponent. One that is too large is infinite below zero and no
number above. -/
def decimal : Reader Value := do
  let negative ← sign
  let whole ← wholePart
  let places ← optional fraction
  let e ← match places with
    | none => exponent
    | some _ => (·.getD 0) <$> optional exponent
  let places := places.getD []
  match Binary64.ofDecimal negative (ofDigits 10 (whole ++ places)) (e - places.length) with
  | some x => return .floating (.finite x)
  | none => if negative then return .floating (.infinity true) else failure

/-- A number by its name. -/
def namedNumber : Reader Value := do
  let negative ← sign
  (do word "inf"; return .floating (.infinity negative)) <|>
    (do word "nan"; return .floating .nan)

/-! ### Dates and times -/

/-- A number of so many digits, within bounds. -/
def bounded (width low high : Nat) : Reader Nat := do
  let n := ofDigits 10 (← exactly Char.isDigit width)
  if low ≤ n ∧ n ≤ high then return n else failure

/-- The days of a month. -/
def daysIn (year month : Nat) : Nat :=
  if month = 2 then
    if year % 4 = 0 ∧ (year % 100 ≠ 0 ∨ year % 400 = 0) then 29 else 28
  else if month ∈ [4, 6, 9, 11] then 30 else 31

/-- A day of a year. -/
def date : Reader Unit := do
  let year ← bounded 4 0 9999
  char '-'
  let month ← bounded 2 1 12
  char '-'
  let _ ← bounded 2 1 (daysIn year month)

/-- An hour and a minute. -/
def clock : Reader Unit := do
  let _ ← bounded 2 0 23
  char ':'
  let _ ← bounded 2 0 59

/-- A time of day. The second may be a leap second. -/
def time : Reader Unit := do
  clock
  char ':'
  let _ ← bounded 2 0 60
  if ← accept '.' then
    let _ ← satisfy Char.isDigit
    let _ ← Reader.takeWhile Char.isDigit

/-- A time's distance from universal time. -/
def zone : Reader Unit :=
  (do let _ ← satisfy fun c => c = 'Z' || c = 'z') <|>
  (do let _ ← satisfy fun c => c = '+' || c = '-'; clock)

/-- A date, a time, or both. -/
def moment : Reader Value :=
  (do
    date
    let _ ← optional do
      let _ ← satisfy fun c => c = 'T' || c = 't' || c = ' '
      time
      optional zone
    return .moment) <|>
  (do time; return .moment)

/-! ### All of them -/

/-- A value that holds no other. -/
def scalar : Reader Value := do
  match ← peek with
  | some '"' | some '\'' => .string <$> string
  | some 't' => word "true"; return .boolean true
  | some 'f' => word "false"; return .boolean false
  | _ => moment <|> decimal <|> namedNumber <|> integer

end HttpEcho.Toml
