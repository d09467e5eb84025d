import HttpEcho.Text.Utf8

/-! The shapes of an argument.

An argument is a list of octets, any of them. How it begins decides what it may be. -/
namespace HttpEcho.CommandLine

/-- An argument. -/
abbrev Argument := List UInt8

namespace Argument

/-- A dash. -/
def dash : UInt8 := 0x2D

/-- An equals sign. -/
def equals : UInt8 := 0x3D

/-- The text of an argument, as far as it is text. -/
def lossy (a : Argument) : String := String.ofList (Utf8.decodeLossy a)

/-- The text of an argument that is text. -/
def text? (a : Argument) : Option String := (Utf8.decode? a).map String.ofList

/-- The argument that a text is. -/
def ofText (s : String) : Argument := Utf8.encode s.toList

end Argument

/-- What an argument looks like. -/
inductive Word where
  /-- Two dashes: what follows is no option. -/
  | separator
  /-- Two dashes and a name, with a value after an equals sign. -/
  | named (name : Argument) (value : Option Argument)
  /-- One dash and at least one octet. -/
  | lettered (first : UInt8) (rest : Argument)
  /-- Anything else. A lone dash belongs here. -/
  | plain (a : Argument)
  deriving DecidableEq, Repr

open Argument in
/-- The shape of an argument. -/
def Word.ofArgument : Argument → Word
  | a :: b :: rest =>
    if a ≠ dash then .plain (a :: b :: rest)
    else if b ≠ dash then .lettered b rest
    else
      match rest with
      | [] => .separator
      | _ =>
        match rest.dropWhile (· ≠ equals) with
        | [] => .named rest none
        | _ :: value => .named (rest.takeWhile (· ≠ equals)) (some value)
  | a => .plain a

end HttpEcho.CommandLine
