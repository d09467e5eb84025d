/-! How deep a body nests, by a scan of its octets.

The scan knows strings and their escapes and nothing else, so it takes any octets at all. It runs
before anything is built, and bounds what can be built from the body. -/
namespace HttpEcho.Json.Nesting

/-- Where a scan stands. -/
inductive Place where
  | outside
  | inString
  /-- After a backslash in a string. -/
  | escaped
  deriving DecidableEq, Repr

/-- A scan between two octets. -/
structure Scan where
  place : Place := .outside
  /-- What is open. An end without a beginning is passed over. -/
  depth : Nat := 0
  deepest : Nat := 0
  deriving DecidableEq, Repr

/-- Takes an octet. -/
def Scan.push (s : Scan) (b : UInt8) : Scan :=
  match s.place with
  | .escaped => { s with place := .inString }
  | .inString =>
    if b = 0x5C then { s with place := .escaped }
    else if b = 0x22 then { s with place := .outside }
    else s
  | .outside =>
    if b = 0x22 then { s with place := .inString }
    else if b = 0x5B ∨ b = 0x7B then
      { s with depth := s.depth + 1, deepest := max s.deepest (s.depth + 1) }
    else if b = 0x5D ∨ b = 0x7D then { s with depth := s.depth - 1 }
    else s

/-- Takes many octets. -/
def Scan.pushAll (s : Scan) (octets : List UInt8) : Scan :=
  octets.foldl Scan.push s

end Nesting

/-- The deepest nesting of `[` and `{` outside strings. -/
def nestingDepth (body : List UInt8) : Nat :=
  (Nesting.Scan.pushAll {} body).deepest

end HttpEcho.Json
