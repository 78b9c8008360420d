import Interruptible.Config.Json

/-!
# JSON5

Reads JSON with comments, trailing commas, names without quotes, strings between apostrophes, and more ways to write numbers.
-/

namespace Interruptible.Config.Json5

open Interruptible.Text
open Interruptible.Decimal

/-- Whether a character is a blank or a line end. -/
def isSpace (c : Char) : Bool :=
  c == ' ' || c == '\n' || [9, 11, 12, 13, 0xA0, 0xFEFF, 0x2028, 0x2029].contains c.toNat

/-- A comment of either kind. -/
def comment : Reader Unit :=
  (do
    Reader.word "//"
    Reader.skip (· != '\n')) <|> do
    Reader.word "/*"
    let inner : Reader Unit := do
      if ← Reader.accepts (do let left ← Reader.rest; if left.take 2 == ['*', '/'] then pure () else Reader.refuse) then
        Reader.refuse
      else
        let _ ← Reader.satisfy fun _ => true
    let _ ← Reader.many inner
    Reader.word "*/"

/-- Blanks, line ends and comments. -/
def gap : Reader Unit := do
  let _ ← Reader.many ((do let _ ← Reader.span1 isSpace) <|> comment)

/-- A character after a backslash. -/
def escape : Reader (List Char) := do
  match ← Reader.peek with
  | some 'v' => do
    Reader.char 'v'
    return [Char.ofNat 11]
  | some '0' => do
    Reader.char '0'
    return [Char.ofNat 0]
  | some 'x' => do
    Reader.char 'x'
    match charOf? (numberOf 16 (← Reader.exactly isHex 2)) with
    | some c => return [c]
    | none => Reader.refuse
  | some '\n' => do
    Reader.char '\n'
    return []
  | some '\r' => do
    Reader.char '\r'
    let _ ← Reader.accepts (Reader.char '\n')
    return []
  | some c =>
    if "\"\\/bfnrtu".toList.contains c then return [← Json.escape]
    else if isDigit c then Reader.refuse
    else
      Reader.char c
      return [c]
  | none => Reader.refuse

/-- A string between a pair of marks. -/
def stringIn (mark : Char) : Reader String := do
  Reader.char mark
  let one : Reader (List Char) := do
    return [← Reader.satisfy fun c => c != mark && c != '\\' && c != '\n' && c != '\r']
  let escaped : Reader (List Char) := do
    Reader.char '\\'
    escape
  let cs ← Reader.many (one <|> escaped)
  Reader.char mark
  return String.ofList cs.flatten

/-- A string. -/
def string : Reader String := stringIn '"' <|> stringIn '\''

/-- The name of a field. -/
def name : Reader String :=
  string <|> do
    let isStart (c : Char) : Bool := c.isAlpha || c == '_' || c == '$' || c.toNat > 127
    let first ← Reader.satisfy isStart
    let more ← Reader.span fun c => isStart c || isDigit c
    return String.ofList (first :: more)

/-- A number. -/
def number : Reader Setting := do
  let negative ← readSign
  let sign (x : Float) : Float := if negative then -x else x
  let infinite : Reader Setting := do
    Reader.word "Infinity"
    return .float (sign (1.0 / 0.0))
  let none : Reader Setting := do
    Reader.word "NaN"
    return .float (0.0 / 0.0)
  let hexadecimal : Reader Setting := do
    Reader.word "0x" <|> Reader.word "0X"
    let n : Int := numberOf 16 (← Reader.span1 isHex)
    return .int (if negative then -n else n)
  let decimal : Reader Setting := do
    let whole ← Reader.span isDigit
    if whole.length > 1 && whole.head? == some '0' then Reader.refuse
    let point ← Reader.accepts (Reader.char '.')
    let fraction ← if point then Reader.span isDigit else pure []
    if whole.isEmpty && fraction.isEmpty then Reader.refuse
    let exponent ← Reader.optional readExponent
    let n : Int := numberOf 10 whole
    let n := if negative then -n else n
    if !point && exponent.isNone && -9223372036854775808 ≤ n && n ≤ 9223372036854775807 then return .int n
    else return .float (floatOf negative (numberOf 10 (whole ++ fraction)) (exponent.getD 0 - fraction.length))
  infinite <|> none <|> hexadecimal <|> decimal

/-- Items with commas between them and maybe one after the last. -/
def listed {α : Type} (item : Reader α) : Reader (List α) := do
  gap
  let items ← Reader.many (do
    let a ← item
    gap
    let more ← Reader.accepts (Reader.char ',')
    gap
    return (a, more))
  if items.dropLast.all (·.2) then return items.map (·.1) else Reader.refuse

/-- A value, nested at most `n` deep. -/
def value : Nat → Reader Setting
  | 0 => Reader.refuse
  | n + 1 => do
    match ← Reader.peek with
    | some '"' | some '\'' => return .str (← string)
    | some '[' => do
      Reader.char '['
      let items ← listed (value n)
      Reader.char ']'
      return .list items
    | some '\x7b' => do
      Reader.char '\x7b'
      let fields ← listed do
        let k ← name
        gap
        Reader.char ':'
        gap
        return (k, ← value n)
      Reader.char '\x7d'
      return .table (fields.foldl (fun es f => Setting.putEntry f.1 f.2 es) [])
    | some 't' => do
      Reader.word "true"
      return .bool true
    | some 'f' => do
      Reader.word "false"
      return .bool false
    | some 'n' => do
      Reader.word "null"
      return .nil
    | _ => number

/-- The entries of a document, which must be an object. -/
def read? (text : String) : Option (List (String × Setting)) := do
  let document : Reader Setting := do
    gap
    let v ← value (text.length + 1)
    gap
    return v
  match ← Reader.readAll document text with
  | .table es => return es
  | _ => none

end Interruptible.Config.Json5
