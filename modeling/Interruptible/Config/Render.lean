import Interruptible.Config.Basic

/-!
# Configurations as text

Writes a configuration as TOML. A string is written in the plainest of the four ways in which it can be written: between
quotes without escapes, between apostrophes, between triple quotes, between triple apostrophes. Only a string that fits none
of them is written with escapes.
-/

namespace Interruptible.Config

namespace Render

/-- Whether a character can only be written as an escape. -/
def needsEscape (c : Char) : Bool := (c.toNat < 32 && c != '\t' && c != '\n') || c.toNat == 127

/-- The length of the longest run of a character in a text, where the run at the front is `run` longer. -/
def longestRun (mark : Char) (run : Nat) : List Char → Nat
  | [] => run
  | c :: rest => if c = mark then longestRun mark (run + 1) rest else max run (longestRun mark 0 rest)

/-- How a string is written. -/
inductive Style where
  | basic
  | literal
  | longBasic
  | longLiteral
deriving Inhabited, Repr, DecidableEq

/-- The plainest style for a string. -/
def styleOf (cs : List Char) : Style :=
  let newline := cs.contains '\n'
  if cs.any needsEscape then if newline then .longBasic else .basic
  else if !cs.contains '\\' && !cs.contains '"' && !newline then .basic
  else if !cs.contains '\'' && !newline then .literal
  else if !cs.contains '\\' && longestRun '"' 0 cs ≤ 2 then .longBasic
  else if longestRun '\'' 0 cs ≤ 2 then .longLiteral
  else if newline then .longBasic
  else .basic

/-- An upper-case hexadecimal digit. -/
def hexDigit (n : Nat) : Char := if n < 10 then Char.ofNat ('0'.toNat + n) else Char.ofNat ('A'.toNat + (n - 10))

/-- A character that is written as an escape. -/
def escape (c : Char) : List Char :=
  if c = '\t' then ['\\', 't']
  else if c = '\n' then ['\\', 'n']
  else if c = '\r' then ['\\', 'r']
  else if c = '\\' then ['\\', '\\']
  else if c = '"' then ['\\', '"']
  else if c.toNat = 8 then ['\\', 'b']
  else if c.toNat = 12 then ['\\', 'f']
  else ['\\', 'u', '0', '0', hexDigit (c.toNat / 16), hexDigit (c.toNat % 16)]

/-- Characters on one line between quotes. -/
def basicText (cs : List Char) : List Char :=
  cs.flatMap fun c => if c.toNat < 32 || c.toNat == 127 || c = '\\' || c = '"' then escape c else [c]

/-- Characters between triple quotes: line ends stand for themselves, and so do quotes, unless they are the third in a row. -/
def longBasicText (quotes : Nat) : List Char → List Char
  | [] => []
  | c :: rest =>
    if c = '"' then
      if quotes = 2 then escape c ++ longBasicText 0 rest else c :: longBasicText (quotes + 1) rest
    else if c = '\n' then c :: longBasicText 0 rest
    else if c.toNat < 32 || c.toNat == 127 || c = '\\' then escape c ++ longBasicText 0 rest
    else c :: longBasicText 0 rest

/-- A string. Between triple marks a text of several lines starts on a line of its own. -/
def quote (s : String) : String :=
  let cs := s.toList
  let start := if cs.contains '\n' then "\n" else ""
  match styleOf cs with
  | .basic => "\"" ++ String.ofList (basicText cs) ++ "\""
  | .literal => "'" ++ s ++ "'"
  | .longBasic => "\"\"\"" ++ start ++ String.ofList (longBasicText 0 cs) ++ "\"\"\""
  | .longLiteral => "'''" ++ start ++ s ++ "'''"

end Render

/-- The text of a configuration. -/
def render (c : Config) : String :=
  "[interpreter]\nyield_interval = " ++ toString c.yieldInterval ++ "\n\n[logging]\nfilter = " ++ Render.quote c.filter ++ "\n"

end Interruptible.Config
