/-! Unsigned decimal numbers in a text.

A plus may stand in front, and any number of zeros. The text is read from the left, and the first
thing that is wrong decides which error it is. -/
namespace HttpEcho.Unsigned

/-- Why a text is no number. -/
inductive Error where
  | empty
  | invalidDigit
  | tooLarge
  deriving DecidableEq, Repr

/-- The wording of an error. -/
def Error.message : Error → String
  | .empty => "cannot parse integer from empty string"
  | .invalidDigit => "invalid digit found in string"
  | .tooLarge => "number too large to fit in target type"

/-- Reads digits after `n`. -/
def digits (max : Nat) (n : Nat) : List Char → Except Error Nat
  | [] => .ok n
  | c :: rest =>
    if c.isDigit then
      let m := 10 * n + (c.toNat - '0'.toNat)
      if m ≤ max then digits max m rest else .error .tooLarge
    else .error .invalidDigit

/-- The number that a text is, up to `max`. -/
def parse (max : Nat) (text : List Char) : Except Error Nat :=
  match text with
  | [] => .error .empty
  | ['+'] => .error .invalidDigit
  | '+' :: rest => digits max 0 rest
  | text => digits max 0 text

end HttpEcho.Unsigned
