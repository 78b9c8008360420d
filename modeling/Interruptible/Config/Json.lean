import Interruptible.Config.Setting

/-!
# JSON

Reads strict JSON. Whole numbers of 64 bits with a sign are integers, all others are floats; of two fields of one name the
later one stays.
-/

namespace Interruptible.Config.Json

open Interruptible.Text
open Interruptible.Decimal

/-- Blanks between tokens. -/
def blanks : Reader Unit := Reader.skip fun c => c == ' ' || c == '\t' || c == '\n' || c == '\r'

/-- Four hexadecimal digits. -/
def unit16 : Reader Nat := do return numberOf 16 (← Reader.exactly isHex 4)

/-- The character that one unit, or a pair of units, stands for. -/
def escapedUnits : Reader Char := do
  let high ← unit16
  if 0xD800 ≤ high && high < 0xDC00 then
    Reader.word "\\u"
    let low ← unit16
    if 0xDC00 ≤ low && low < 0xE000 then
      return Char.ofNat (0x10000 + (high - 0xD800) * 0x400 + (low - 0xDC00))
    else Reader.refuse
  else
    match charOf? high with
    | some c => return c
    | none => Reader.refuse

/-- A character after a backslash. -/
def escape : Reader Char := do
  match ← Reader.satisfy fun _ => true with
  | '"' => return '"'
  | '\\' => return '\\'
  | '/' => return '/'
  | 'b' => return Char.ofNat 8
  | 'f' => return Char.ofNat 12
  | 'n' => return '\n'
  | 'r' => return '\r'
  | 't' => return '\t'
  | 'u' => escapedUnits
  | _ => Reader.refuse

/-- A string. -/
def string : Reader String := do
  Reader.char '"'
  let cs ← Reader.many (
    (Reader.satisfy fun c => c.toNat ≥ 32 && c != '"' && c != '\\') <|> do
      Reader.char '\\'
      escape)
  Reader.char '"'
  return String.ofList cs

/-- A number that is an integer if it is written without fraction and exponent and fits. -/
def numberSetting (negative : Bool) (whole fraction : List Char) (exponent : Option Int) : Option Setting :=
  let n : Int := numberOf 10 whole
  let n := if negative then -n else n
  if fraction.isEmpty && exponent.isNone && -9223372036854775808 ≤ n && n ≤ 9223372036854775807
      && !(negative && n == 0) then
    some (.int n)
  else
    let x := floatOf negative (numberOf 10 (whole ++ fraction)) (exponent.getD 0 - fraction.length)
    if x.isInf then none else some (.float x)

/-- A number. -/
def number : Reader Setting := do
  let negative ← Reader.accepts (Reader.char '-')
  let whole ← Reader.span1 isDigit
  if whole.length > 1 && whole.head? == some '0' then Reader.refuse
  let fraction ← Reader.optional do
    Reader.char '.'
    Reader.span1 isDigit
  let exponent ← Reader.optional readExponent
  match numberSetting negative whole (fraction.getD []) exponent with
  | some s => return s
  | none => Reader.refuse

/-- A value, nested at most `n` deep. -/
def value : Nat → Reader Setting
  | 0 => Reader.refuse
  | n + 1 => do
    blanks
    let v ← (match ← Reader.peek with
      | some '"' => do return .str (← string)
      | some '[' => do
        Reader.char '['
        blanks
        let items ← Reader.optional (Reader.sepBy1 (value n) (Reader.char ','))
        Reader.char ']'
        return .list (items.getD [])
      | some '\x7b' => do
        Reader.char '\x7b'
        blanks
        let field : Reader (String × Setting) := do
          blanks
          let k ← string
          blanks
          Reader.char ':'
          return (k, ← value n)
        let fields ← Reader.optional (Reader.sepBy1 field (Reader.char ','))
        Reader.char '\x7d'
        return .table ((fields.getD []).foldl (fun es f => Setting.putEntry f.1 f.2 es) [])
      | some 't' => do
        Reader.word "true"
        return .bool true
      | some 'f' => do
        Reader.word "false"
        return .bool false
      | some 'n' => do
        Reader.word "null"
        return .nil
      | _ => number : Reader Setting)
    blanks
    return v

/-- The entries of a document, which must be an object. -/
def read? (text : String) : Option (List (String × Setting)) := do
  match ← Reader.readAll (value 128) text with
  | .table es => return es
  | _ => none

end Interruptible.Config.Json
