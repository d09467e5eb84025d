import HttpEcho.CommandLine.Flag

/-! The help of the command line, short and long. -/
namespace HttpEcho.CommandLine

/-- How much help is asked for. -/
inductive Help where
  | short
  | long
  deriving DecidableEq, Repr

namespace Help

/-- The text up to the options. `gap` stands between a name and what it is for. -/
def opening (gap : String) : List String :=
  ["Echo request headers and a transformed request body", "",
    "Usage: echo-server [OPTIONS] <ADDR>", "",
    "Arguments:", "  <ADDR>" ++ gap ++ "Listen address: host:port, or :port for all interfaces", "",
    "Options:"]

/-- An option by its letter and its name. -/
def heading (f : Flag) : String :=
  "-" ++ String.singleton f.letter ++ ", " ++ f.usage

/-- The heading of the option that asks for help. -/
def helpHeading : String := "-h, --help"

/-- The column after the longest heading. -/
def column : Nat :=
  (Flag.all.map fun f => (heading f).length).foldl max 0 + 2

/-- A heading and its purpose in one line. -/
def entry (heading purpose : String) : String :=
  "  " ++ heading ++ String.ofList (List.replicate (column - heading.length) ' ') ++ purpose

/-- The purpose of an option in one line. -/
def shortPurpose : Flag → String
  | .mode => Flag.mode.purpose ++ " [possible values: " ++
      ", ".intercalate (Mode.all.map Mode.name) ++ "]"
  | f => f.purpose

/-- A line of the long help, moved to the right. -/
def indented (line : String) : String := "          " ++ line

/-- The longest name of a mode. -/
def modeColumn : Nat := (Mode.all.map (·.name.length)).foldl max 0

/-- A mode's name, a colon and what it is for, the last all in one column. -/
def modeLine (m : Mode) : String :=
  "- " ++ m.name ++ ":" ++ String.ofList (List.replicate (modeColumn - m.name.length + 1) ' ') ++
    purposeOf m

/-- The purpose of an option in several lines. -/
def longPurpose : Flag → List String
  | .mode =>
    indented Flag.mode.purpose :: "" :: indented "Possible values:" ::
      Mode.all.map (indented <| modeLine ·)
  | f => [indented f.purpose]

/-- The lines of the help. -/
def lines : Help → List String
  | .short =>
    opening "  " ++ Flag.all.map (fun f => entry (heading f) (shortPurpose f)) ++
      [entry helpHeading "Print help (see more with '--help')"]
  | .long =>
    opening "\n          " ++
      Flag.all.flatMap (fun f => ("  " ++ heading f) :: longPurpose f ++ [""]) ++
      ["  " ++ helpHeading, indented "Print help (see a summary with '-h')"]

/-- The whole help. -/
def text (h : Help) : String :=
  "\n".intercalate h.lines ++ "\n"

end Help

end HttpEcho.CommandLine
