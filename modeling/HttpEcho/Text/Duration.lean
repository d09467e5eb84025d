/-! The text of a duration.

The largest unit that is not longer than the duration is taken, seconds or milliseconds, with a
fraction that has no zeros at its end. Nothing at all is counted in the least unit. -/
namespace HttpEcho.Text

/-- The three decimal places of a number below a thousand, without zeros at the end. -/
def places (n : Nat) : List Char :=
  let all := [n / 100, n / 10 % 10, n % 10].map Nat.digitChar
  (all.reverse.dropWhile (· = '0')).reverse

/-- The text of a number of milliseconds. -/
def duration (ms : Nat) : String :=
  if ms = 0 then "0ns"
  else if ms < 1000 then toString ms ++ "ms"
  else
    match places (ms % 1000) with
    | [] => toString (ms / 1000) ++ "s"
    | fraction => toString (ms / 1000) ++ "." ++ String.ofList fraction ++ "s"

end HttpEcho.Text
