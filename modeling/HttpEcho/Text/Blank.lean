/-! White space around a text.

The blanks are the characters with the Unicode property White_Space. -/
namespace HttpEcho.Text

/-- Whether a character is white space. -/
def isBlank (c : Char) : Bool :=
  let n := c.toNat
  (0x09 ≤ n && n ≤ 0x0D) || n = 0x20 || n = 0x85 || n = 0xA0 || n = 0x1680 ||
    (0x2000 ≤ n && n ≤ 0x200A) || n = 0x2028 || n = 0x2029 || n = 0x202F || n = 0x205F ||
    n = 0x3000

/-- The text without the blanks in front. -/
def dropBlank (text : List Char) : List Char :=
  text.dropWhile isBlank

/-- The text without the blanks around it. -/
def trim (text : List Char) : List Char :=
  (dropBlank (dropBlank text).reverse).reverse

/-- A text without its ASCII capitals. -/
def lowercase (s : String) : String :=
  String.ofList (s.toList.map Char.toLower)

end HttpEcho.Text
