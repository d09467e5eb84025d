/-! The date of a response.

A date counts seconds from the start of 1970 and is written with its weekday, in universal time.
Days are counted in eras of 400 years, which all have the same length, from the first of March of
the year zero; so a leap day is the last day of its year. -/
namespace HttpEcho.Http.Wire

/-- A day of the calendar. -/
structure Day where
  year : Nat
  month : Nat
  day : Nat
  deriving DecidableEq, Repr

/-- The days from the first of March of the year zero to the start of 1970. -/
def daysBefore1970 : Nat := 719468

/-- The days of an era. -/
def daysPerEra : Nat := 146097

/-- The day that is so many days after the start of 1970. -/
def Day.ofCount (days : Nat) : Day :=
  let z := days + daysBefore1970
  let era := z / daysPerEra
  let dayOfEra := z % daysPerEra
  let yearOfEra := (dayOfEra - dayOfEra / 1460 + dayOfEra / 36524 - dayOfEra / 146096) / 365
  let dayOfYear := dayOfEra - (365 * yearOfEra + yearOfEra / 4 - yearOfEra / 100)
  let shifted := (5 * dayOfYear + 2) / 153
  let month := if shifted < 10 then shifted + 3 else shifted - 9
  let year := yearOfEra + 400 * era
  ⟨if month ≤ 2 then year + 1 else year, month, dayOfYear - (153 * shifted + 2) / 5 + 1⟩

/-- The names of weekdays. The first day of 1970 was a Thursday. -/
def weekdayNames : List String := ["Thu", "Fri", "Sat", "Sun", "Mon", "Tue", "Wed"]

/-- The names of months. -/
def monthNames : List String :=
  ["Jan", "Feb", "Mar", "Apr", "May", "Jun", "Jul", "Aug", "Sep", "Oct", "Nov", "Dec"]

/-- A number in two digits. -/
def twoDigits (n : Nat) : String :=
  if n < 10 then "0" ++ toString n else toString n

/-- The date that is so many seconds after the start of 1970. -/
def dateText (seconds : Nat) : String :=
  let days := seconds / 86400
  let d := Day.ofCount days
  let time := [seconds / 3600 % 24, seconds / 60 % 60, seconds % 60].map twoDigits
  (weekdayNames[days % 7]?).getD "" ++ ", " ++ twoDigits d.day ++ " " ++
    (monthNames[d.month - 1]?).getD "" ++ " " ++ toString d.year ++ " " ++
    ":".intercalate time ++ " GMT"

example : dateText 784111777 = "Sun, 06 Nov 1994 08:49:37 GMT" := by decide +kernel

end HttpEcho.Http.Wire
