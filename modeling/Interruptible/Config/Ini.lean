import Interruptible.Config.Setting

/-!
# INI

Reads sections of keys with values, which are all strings. A comment takes a line of its own, a value may stand between
quotes, and a backslash escapes the character after it.
-/

namespace Interruptible.Config.Ini

open Interruptible.Text

/-- Whether a character is a blank or a line end. -/
def isSpace (c : Char) : Bool := c == ' ' || c == '\t' || c == '\n' || c == '\r'

/-- Whether a character is a blank within a line. -/
def isBlank (c : Char) : Bool := c == ' ' || c == '\t'

/-- A character after a backslash. -/
def escape : Reader (List Char) := do
  match ← Reader.satisfy fun _ => true with
  | '0' => return [Char.ofNat 0]
  | 'a' => return [Char.ofNat 7]
  | 'b' => return [Char.ofNat 8]
  | 't' => return ['\t']
  | 'r' => return ['\r']
  | 'n' => return ['\n']
  | '\n' => return []
  | 'x' => do
    match charOf? (numberOf 16 (← Reader.exactly isHex 4)) with
    | some c => return [c]
    | none => Reader.refuse
  | c => return [c]

/-- Characters and escapes up to a character that ends them, which stays where it is. -/
def runTo (ends : Char → Bool) : Reader (List Char) := do
  let one : Reader (List Char) := do return [← Reader.satisfy fun c => c != '\\' && !ends c]
  let escaped : Reader (List Char) := do
    Reader.char '\\'
    escape
  return (← Reader.many (one <|> escaped)).flatten

/-- Drops blanks and line ends on both sides. -/
def trim (cs : List Char) : String :=
  String.ofList (((cs.dropWhile isSpace).reverse.dropWhile isSpace).reverse)

/-- A value, up to the end of its line. -/
def value : Reader String := do
  Reader.skip isBlank
  let isEnd (c : Char) : Bool := c == '\n' || c == '\r'
  match ← Reader.peek with
  | some '"' => between '"' isEnd
  | some '\'' => between '\'' isEnd
  | _ => return trim (← runTo isEnd)
where
  /-- A value between marks, with what follows it on its line. -/
  between (mark : Char) (isEnd : Char → Bool) : Reader String := do
    Reader.char mark
    let inside ← runTo (· == mark)
    Reader.char mark
    let after ← runTo isEnd
    return String.ofList inside ++ trim after

/-- A part of a document. -/
inductive Part where
  | comment
  | section (name : String)
  | pair (key value : String)

/-- The part at hand. -/
def part : Reader Part := do
  match ← Reader.peek with
  | some ';' | some '#' => do
    Reader.skip (· != '\n')
    return .comment
  | some '[' => do
    Reader.char '['
    let name ← runTo (· == ']')
    Reader.char ']'
    return .section (trim name)
  | _ => do
    let key ← runTo fun c => c == '=' || c == ':'
    let _ ← Reader.satisfy fun c => c == '=' || c == ':'
    if (trim key).isEmpty then Reader.refuse
    return .pair (trim key) (← value)

/-- Takes a part into the entries read so far; the name is that of the section at hand. -/
def add (state : Option String × List (String × Setting)) : Part → Option String × List (String × Setting)
  | .comment => state
  | .section name => (some name, Setting.putEntry name (.table []) state.2)
  | .pair k v =>
    match state.1 with
    | none => (none, Setting.putEntry k (.str v) state.2)
    | some name =>
      let old := (state.2.lookup name).getD (.table [])
      (some name, Setting.putEntry name (old.put k (.str v)) state.2)

/-- The entries of a document. -/
def read? (text : String) : Option (List (String × Setting)) := do
  let document : Reader (List Part) := do
    Reader.skip isSpace
    Reader.many (do let p ← part; Reader.skip isSpace; return p)
  let parts ← Reader.readAll document text
  return (parts.foldl add (none, [])).2

end Interruptible.Config.Ini
