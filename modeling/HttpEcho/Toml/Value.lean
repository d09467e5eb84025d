import HttpEcho.Number.Shortest

/-! The values of a TOML document. -/
namespace HttpEcho.Toml

/-- A floating-point number. -/
inductive Floating where
  | finite (x : Binary64)
  | infinity (negative : Bool)
  | nan
  deriving DecidableEq, Repr

/-- A number without an exponent, with at least one digit on both sides of the point. -/
def Floating.text : Floating → String
  | .finite x =>
    let digits := String.ofList (Binary64.shortest .up x.units).significant.positional
    if x.negative then "-" ++ digits else digits
  | .infinity negative => if negative then "-inf" else "inf"
  | .nan => "NaN"

/-- A value. Dates and times are told apart from everything else but not from each other. -/
inductive Value where
  | string (text : String)
  | integer (n : Int)
  | floating (x : Floating)
  | boolean (b : Bool)
  | moment
  | array (items : List Value)
  | table (entries : List (String × Value))

end HttpEcho.Toml
