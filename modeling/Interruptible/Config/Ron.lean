import Interruptible.Config.Json5

/-!
# RON

Reads records, maps, lists, tuples, options and scalars. A record or a map is a table, a list or a tuple is a list, and an
option is what it holds.
-/

namespace Interruptible.Config.Ron

open Interruptible.Text
open Interruptible.Decimal

/-- Blanks, line ends and comments. -/
def gap : Reader Unit := Json5.gap

/-- A name. -/
def identifier : Reader String := do
  let isStart (c : Char) : Bool := c.isAlpha || c == '_'
  let first ← Reader.satisfy isStart
  let more ← Reader.span fun c => isStart c || isDigit c
  return String.ofList (first :: more)

/-- A code point between braces after its marker. -/
def bracedUnit : Reader Char := do
  Reader.char 'u'
  Reader.char '\x7b'
  let digits ← Reader.span1 isHex
  Reader.char '\x7d'
  match charOf? (numberOf 16 digits) with
  | some c => return c
  | none => Reader.refuse

/-- A character after a backslash. -/
def escape : Reader Char :=
  bracedUnit <|> (do
    Reader.char '\''
    return '\'') <|> Json.escape

/-- A string between quotes. -/
def string : Reader String := do
  Reader.char '"'
  let cs ← Reader.many (
    (Reader.satisfy fun c => c != '"' && c != '\\') <|> do
      Reader.char '\\'
      escape)
  Reader.char '"'
  return String.ofList cs

/-- A string without escapes, between quotes with as many signs on both sides. -/
def rawString : Reader String := do
  Reader.char 'r'
  let signs ← Reader.span (· == '#')
  Reader.char '"'
  let close := '"' :: signs
  let inner : Reader Char := do
    if (← Reader.rest).take close.length == close then Reader.refuse
    Reader.satisfy fun _ => true
  let cs ← Reader.many inner
  Reader.word (String.ofList close)
  return String.ofList cs

/-- A single character between apostrophes. -/
def character : Reader String := do
  Reader.char '\''
  let c ← (Reader.satisfy fun c => c != '\\' && c != '\'') <|> do
    Reader.char '\\'
    escape
  Reader.char '\''
  return c.toString

/-- Digits with underscores between them. -/
def digits (p : Char → Bool) : Reader (List Char) := do
  let first ← Reader.satisfy p
  let more ← Reader.span fun c => p c || c == '_'
  return first :: more.filter (· != '_')

/-- A number. -/
def number : Reader Setting := do
  let negative ← readSign
  let based (marker : String) (base : Nat) (p : Char → Bool) : Reader Setting := do
    Reader.word marker
    let n : Int := numberOf base (← digits p)
    return .int (if negative then -n else n)
  let words : Reader Setting := do
    match specialFloat? negative (← identifier) with
    | some x => return .float x
    | none => Reader.refuse
  let decimal : Reader Setting := do
    let whole := (← Reader.optional (digits isDigit)).getD []
    let point ← Reader.accepts (Reader.char '.')
    let fraction ← if point then Reader.span isDigit else pure []
    if whole.isEmpty && fraction.isEmpty then Reader.refuse
    let exponent ← Reader.optional readExponent
    let n : Int := numberOf 10 whole
    let n := if negative then -n else n
    if !point && exponent.isNone && -9223372036854775808 ≤ n && n ≤ 9223372036854775807 then return .int n
    else return .float (floatOf negative (numberOf 10 (whole ++ fraction)) (exponent.getD 0 - fraction.length))
  based "0x" 16 isHex <|> based "0o" 8 (fun c => '0' ≤ c && c ≤ '7') <|> based "0b" 2 (fun c => c == '0' || c == '1')
    <|> words <|> decimal

/-- What stands between parentheses: the fields of a record, or the items of a tuple; nothing is null. -/
def parenthesised (value : Reader Setting) : Reader Setting := do
  Reader.char '('
  gap
  let field : Reader (String × Setting) := do
    let k ← identifier
    gap
    Reader.char ':'
    gap
    return (k, ← value)
  let fields ← Reader.optional do
    let fs ← Json5.listed field
    if fs.isEmpty then Reader.refuse
    Reader.char ')'
    return fs
  match fields with
  | some fs => return .table (fs.foldl (fun es f => Setting.putEntry f.1 f.2 es) [])
  | none => do
    let items ← Json5.listed value
    Reader.char ')'
    return if items.isEmpty then .nil else .list items

/-- A value, nested at most `n` deep. -/
def value : Nat → Reader Setting
  | 0 => Reader.refuse
  | n + 1 => do
    let named : Reader Setting := do
      match ← identifier with
      | "true" => return .bool true
      | "false" => return .bool false
      | "None" => return .nil
      | "Some" => do
        gap
        Reader.char '('
        gap
        let v ← value n
        gap
        Reader.char ')'
        return v
      | "inf" => return .float (1.0 / 0.0)
      | "NaN" => return .float (0.0 / 0.0)
      | _ => do
        gap
        match ← Reader.peek with
        | some '(' => parenthesised (value n)
        | _ => return .nil
    match ← Reader.peek with
    | some '"' => return .str (← string)
    | some '\'' => return .str (← character)
    | some '(' => parenthesised (value n)
    | some '[' => do
      Reader.char '['
      let items ← Json5.listed (value n)
      Reader.char ']'
      return .list items
    | some '\x7b' => do
      Reader.char '\x7b'
      let entries ← Json5.listed do
        let k ← string <|> rawString
        gap
        Reader.char ':'
        gap
        return (k, ← value n)
      Reader.char '\x7d'
      return .table (entries.foldl (fun es f => Setting.putEntry f.1 f.2 es) [])
    | _ => ((do return .str (← rawString)) <|> named) <|> number

/-- The entries of a document, which must be a record or a map. -/
def read? (text : String) : Option (List (String × Setting)) := do
  let document : Reader Setting := do
    gap
    let v ← value (text.length + 1)
    gap
    return v
  match ← Reader.readAll document text with
  | .table es => return es
  | _ => none

end Interruptible.Config.Ron
