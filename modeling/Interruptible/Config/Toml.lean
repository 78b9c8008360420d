import Interruptible.Config.Setting

/-!
# TOML

Reads a document of key-value pairs under table headers. A name is defined once: a table has one header, a table that came
into being through dotted keys takes no header, and one with a header takes no dotted keys. Dates and times are read as text.
-/

namespace Interruptible.Config.Toml

open Interruptible.Text
open Interruptible.Decimal

/-! ## Blanks and line ends -/

/-- Whether a character is a blank within a line. -/
def isBlank (c : Char) : Bool := c == ' ' || c == '\t'

/-- Blanks within a line. -/
def blanks : Reader Unit := Reader.skip isBlank

/-- Whether a character may stand in a comment or a string. -/
def isText (c : Char) : Bool := c == '\t' || (c.toNat ≥ 32 && c.toNat != 127)

/-- A line end. -/
def newline : Reader Unit := Reader.char '\n' <|> Reader.word "\r\n"

/-- A comment, up to the end of its line. -/
def comment : Reader Unit := do
  Reader.char '#'
  Reader.skip isText

/-- Blanks and an optional comment, up to the end of a line or of the document. -/
def lineEnd : Reader Unit := do
  blanks
  let _ ← Reader.optional comment
  newline <|> Reader.atEnd

/-- Blanks, comments and line ends. -/
def gap : Reader Unit := do
  let _ ← Reader.many (do
    let taken ← Reader.span isBlank
    let noted ← Reader.optional comment
    let ended ← Reader.accepts newline
    if taken.isEmpty && noted.isNone && !ended then Reader.refuse)

/-! ## Strings -/

/-- A character after a backslash. -/
def escape : Reader Char := do
  match ← Reader.satisfy fun _ => true with
  | 'b' => return Char.ofNat 8
  | 't' => return '\t'
  | 'n' => return '\n'
  | 'f' => return Char.ofNat 12
  | 'r' => return '\r'
  | '"' => return '"'
  | '\\' => return '\\'
  | 'u' => codePoint 4
  | 'U' => codePoint 8
  | _ => Reader.refuse
where
  /-- A code point of so many hexadecimal digits. -/
  codePoint (n : Nat) : Reader Char := do
    let digits ← Reader.exactly isHex n
    match charOf? (numberOf 16 digits) with
    | some c => return c
    | none => Reader.refuse

/-- A string between quotes on one line. -/
def basicString : Reader String := do
  Reader.char '"'
  let cs ← Reader.many (
    (Reader.satisfy fun c => isText c && c != '"' && c != '\\') <|> do
      Reader.char '\\'
      escape)
  Reader.char '"'
  return String.ofList cs

/-- A string between apostrophes on one line, without escapes. -/
def literalString : Reader String := do
  Reader.char '\''
  let cs ← Reader.span fun c => isText c && c != '\''
  Reader.char '\''
  return String.ofList cs

/-- The end of a string over several lines: three marks, after up to two that belong to the string. -/
def longEnd (mark : Char) : Reader (List Char) := do
  let marks ← Reader.span (· == mark)
  if 3 ≤ marks.length && marks.length ≤ 5 then return List.replicate (marks.length - 3) mark else Reader.refuse

/-- One or two marks inside a string over several lines. -/
def innerMarks (mark : Char) : Reader (List Char) := do
  let marks ← Reader.span1 (· == mark)
  if marks.length < 3 then return marks else Reader.refuse

/-- A line end inside a string over several lines. -/
def innerNewline : Reader (List Char) := do
  newline
  return ['\n']

/-- A string between triple quotes. A line end right after the quotes is left out, and so are a backslash at the end of a
line and the blanks and line ends after it. -/
def longBasicString : Reader String := do
  Reader.word "\"\"\""
  let _ ← Reader.optional newline
  let fold : Reader (List Char) := do
    Reader.char '\\'
    blanks
    newline
    Reader.skip fun c => isBlank c || c == '\n' || c == '\r'
    return []
  let escaped : Reader (List Char) := do
    Reader.char '\\'
    return [← escape]
  let plain := Reader.span1 fun c => isText c && c != '"' && c != '\\'
  let cs ← Reader.many (plain <|> innerNewline <|> fold <|> escaped <|> innerMarks '"')
  return String.ofList (cs.flatten ++ (← longEnd '"'))

/-- A string between triple apostrophes, without escapes. -/
def longLiteralString : Reader String := do
  Reader.word "'''"
  let _ ← Reader.optional newline
  let plain := Reader.span1 fun c => isText c && c != '\''
  let cs ← Reader.many (plain <|> innerNewline <|> innerMarks '\'')
  return String.ofList (cs.flatten ++ (← longEnd '\''))

/-- A string of any kind. -/
def string : Reader String := longBasicString <|> longLiteralString <|> basicString <|> literalString

/-! ## Keys -/

/-- One part of a key. -/
def keyPart : Reader String :=
  basicString <|> literalString <|> (String.ofList <$> Reader.span1 fun c => c.isAlphanum || c == '_' || c == '-')

/-- A key: parts with points between them. -/
def key : Reader (List String) := do
  blanks
  let parts ← Reader.sepBy1 (do let p ← keyPart; blanks; return p) (do Reader.char '.'; blanks)
  return parts

/-! ## Numbers, dates and times -/

/-- Digits with single underscores between them. -/
def digits (p : Char → Bool) : Reader (List Char) := do
  return (← Reader.sepBy1 (Reader.span1 p) (Reader.char '_')).flatten

/-- A number in a base that is announced by a marker. -/
def basedInteger : Reader Int := do
  Reader.char '0'
  match ← Reader.satisfy fun _ => true with
  | 'x' => return numberOf 16 (← digits isHex)
  | 'o' => return numberOf 8 (← digits fun c => '0' ≤ c && c ≤ '7')
  | 'b' => return numberOf 2 (← digits fun c => c == '0' || c == '1')
  | _ => Reader.refuse

/-- Decimal digits without a zero in front. -/
def wholePart : Reader (List Char) := do
  let ds ← digits isDigit
  if ds.length > 1 && ds.head? == some '0' then Reader.refuse else return ds

/-- An integer of 64 bits with a sign. -/
def integer : Reader Setting := do
  let n ← basedInteger <|> do
    let negative ← readSign
    let n : Int := numberOf 10 (← wholePart)
    return if negative then -n else n
  if -9223372036854775808 ≤ n ∧ n ≤ 9223372036854775807 then return .int n else Reader.refuse

/-- A number with a fraction or an exponent, or one of the words for infinity and for no number. -/
def float : Reader Setting := do
  let negative ← readSign
  let word : Reader Float := do
    match specialFloat? negative (String.ofList (← Reader.exactly Char.isLower 3)) with
    | some x => return x
    | none => Reader.refuse
  let number : Reader Float := do
    let whole ← wholePart
    let fraction ← Reader.optional do
      Reader.char '.'
      digits isDigit
    let exponent ← Reader.optional do
      let _ ← Reader.satisfy fun c => c == 'e' || c == 'E'
      let minus ← readSign
      let n : Int := numberOf 10 (← digits isDigit)
      return if minus then -n else n
    if fraction.isNone && exponent.isNone then Reader.refuse
    let places := fraction.getD []
    let x := floatOf negative (numberOf 10 (whole ++ places)) (exponent.getD 0 - places.length)
    if x.isInf then Reader.refuse else return x
  return .float (← word <|> number)

/-- A number of so many digits within bounds, as it is written. -/
def field (width low high : Nat) : Reader String := do
  let ds ← Reader.exactly isDigit width
  let n := numberOf 10 ds
  if low ≤ n && n ≤ high then return String.ofList ds else Reader.refuse

/-- The number of days of a month. -/
def daysIn (year month : Nat) : Nat :=
  if month == 2 then
    if (year % 4 == 0 && year % 100 != 0) || year % 400 == 0 then 29 else 28
  else if [4, 6, 9, 11].contains month then 30
  else 31

/-- A date. -/
def date : Reader String := do
  let year ← field 4 0 9999
  Reader.char '-'
  let month ← field 2 1 12
  Reader.char '-'
  let day ← field 2 1 (daysIn (numberOf 10 year.toList) (numberOf 10 month.toList))
  return year ++ "-" ++ month ++ "-" ++ day

/-- A fraction of a second in at most nine places, without zeros at its end. -/
def secondFraction : Reader String := do
  Reader.char '.'
  let ds ← Reader.span1 isDigit
  let kept := ((ds.take 9).reverse.dropWhile (· == '0')).reverse
  return if kept.isEmpty then "" else "." ++ String.ofList kept

/-- A time of day. -/
def time : Reader String := do
  let hour ← field 2 0 23
  Reader.char ':'
  let minute ← field 2 0 59
  Reader.char ':'
  let second ← field 2 0 60
  let fraction ← Reader.optional secondFraction
  return hour ++ ":" ++ minute ++ ":" ++ second ++ fraction.getD ""

/-- The distance of a time zone. -/
def zone : Reader String :=
  (do
    let _ ← Reader.satisfy fun c => c == 'Z' || c == 'z'
    return "Z") <|> do
    let sign ← Reader.satisfy fun c => c == '+' || c == '-'
    let hour ← field 2 0 23
    Reader.char ':'
    let minute ← field 2 0 59
    return sign.toString ++ hour ++ ":" ++ minute

/-- A date, a time, or both, as text. -/
def moment : Reader Setting := do
  let full : Reader String := do
    let d ← date
    let _ ← Reader.satisfy fun c => c == 'T' || c == 't' || c == ' '
    let t ← time
    let z ← Reader.optional zone
    return d ++ "T" ++ t ++ z.getD ""
  return .str (← full <|> date <|> time)

/-! ## Tables while they are read -/

/-- How a table came into being: on the way to another one, through its header, or through dotted keys. -/
inductive Origin where
  | implied
  | header
  | dotted
deriving Inhabited, Repr, DecidableEq

/-- What stands under a name while a document is read. -/
inductive Item where
  | value (s : Setting)
  | table (origin : Origin) (entries : List (String × Item))
  /-- A list of tables, each opened by a header of its own, the last one first. -/
  | tables (ts : List (List (String × Item)))

instance : Inhabited Item := ⟨.value .nil⟩

/-- The entries of a table that is being read. -/
abbrev Items := List (String × Item)

/-- Changes what stands under a name; the change may be refused. -/
def alter (name : String) (f : Option Item → Option Item) : Items → Option Items
  | [] => do return [(name, ← f none)]
  | (n, item) :: rest =>
    if n = name then do return (n, ← f (some item)) :: rest
    else do return (n, item) :: (← alter name f rest)

/-- Defines a key, whose parts before the last lead through tables made of dotted keys. -/
def define (v : Setting) : List String → Items → Option Items
  | [], _ => none
  | [name], items =>
    alter name (fun | none => some (.value v) | some _ => none) items
  | name :: path, items =>
    let last := path.length == 1
    alter name
      (fun
        | none => do return .table .dotted (← define v path [])
        | some (.table .dotted es) => do return .table .dotted (← define v path es)
        | some (.table .implied es) => if last then none else do return .table .implied (← define v path es)
        | some _ => none)
      items

/-- Does something to the entries of the table that a path of names leads to, making tables on the way. -/
def within (f : Items → Option Items) : List String → Items → Option Items
  | [], items => f items
  | name :: path, items =>
    alter name
      (fun
        | none => do return .table .implied (← within f path [])
        | some (.table origin es) => do return .table origin (← within f path es)
        | some (.tables (t :: ts)) => do return .tables ((← within f path t) :: ts)
        | some _ => none)
      items

/-- Opens the table of a header. -/
def openTable (name : String) (items : Items) : Option Items :=
  alter name
    (fun
      | none => some (.table .header [])
      | some (.table .implied es) => some (.table .header es)
      | some _ => none)
    items

/-- Opens one more table of a list of tables. -/
def openListed (name : String) (items : Items) : Option Items :=
  alter name
    (fun
      | none => some (.tables [[]])
      | some (.tables ts) => some (.tables ([] :: ts))
      | some _ => none)
    items

mutual
/-- What stands under a name, as a setting. -/
def Item.setting : Item → Setting
  | .value s => s
  | .table _ es => .table (settings es)
  | .tables ts => .list (settingTables ts).reverse

/-- Entries as entries of a setting. -/
def settings : Items → List (String × Setting)
  | [] => []
  | (k, item) :: rest => (k, item.setting) :: settings rest

/-- Tables as settings. -/
def settingTables : List Items → List Setting
  | [] => []
  | t :: rest => .table (settings t) :: settingTables rest
end

/-! ## Values -/

/-- The pairs of an inline table as a table. -/
def inlineTable (pairs : List (List String × Setting)) : Option Setting := do
  let items ← pairs.foldlM (fun items p => define p.2 p.1 items) ([] : Items)
  return .table (settings items)

/-- A value, nested at most `n` deep. -/
def value : Nat → Reader Setting
  | 0 => Reader.refuse
  | n + 1 => do
    match ← Reader.peek with
    | some '"' | some '\'' => return .str (← string)
    | some '[' => do
      Reader.char '['
      gap
      let items ← Reader.optional (Reader.sepBy1 (do let v ← value n; gap; return v) (do Reader.char ','; gap))
      if items.isSome then
        let _ ← Reader.optional (Reader.char ',')
        gap
      Reader.char ']'
      return .list (items.getD [])
    | some '\x7b' => do
      Reader.char '\x7b'
      blanks
      let pair : Reader (List String × Setting) := do
        let k ← key
        Reader.char '='
        blanks
        let v ← value n
        blanks
        return (k, v)
      let pairs ← Reader.optional (Reader.sepBy1 pair (Reader.char ','))
      Reader.char '\x7d'
      match inlineTable (pairs.getD []) with
      | some t => return t
      | none => Reader.refuse
    | some 't' => do
      Reader.word "true"
      return .bool true
    | some 'f' => do
      Reader.word "false"
      return .bool false
    | _ => moment <|> float <|> integer

/-! ## Documents -/

/-- A line of a document. -/
inductive Line where
  | empty
  | header (path : List String)
  | listedHeader (path : List String)
  | pair (path : List String) (v : Setting)

/-- The line at hand, up to its end. -/
def line (depth : Nat) : Reader Line := do
  blanks
  match ← Reader.peek with
  | some '[' => do
    let listed : Reader Line := do
      Reader.word "[["
      let k ← key
      Reader.word "]]"
      return .listedHeader k
    let plain : Reader Line := do
      Reader.char '['
      let k ← key
      Reader.char ']'
      return .header k
    let l ← listed <|> plain
    lineEnd
    return l
  | some '#' | some '\n' | some '\r' | none => do
    lineEnd
    return .empty
  | _ => do
    let k ← key
    Reader.char '='
    blanks
    let v ← value depth
    lineEnd
    return .pair k v

/-- All lines of a document, at most `n` of them. -/
def lines (depth : Nat) : Nat → Reader (List Line)
  | 0 => Reader.refuse
  | n + 1 => do
    if (← Reader.rest).isEmpty then return []
    let l ← line depth
    return l :: (← lines depth n)

/-- Takes a line into the tables read so far; the path leads to the table that pairs go into. -/
def addLine (state : List String × Items) : Line → Option (List String × Items)
  | .empty => some state
  | .header path => do
    let items ← within (openTable (path.getLastD "")) path.dropLast state.2
    return (path, items)
  | .listedHeader path => do
    let items ← within (openListed (path.getLastD "")) path.dropLast state.2
    return (path, items)
  | .pair path v => do
    let items ← within (define v path) state.1 state.2
    return (state.1, items)

/-- The entries of a document. -/
def read? (text : String) : Option (List (String × Setting)) := do
  let body := if text.toList.head? == some (Char.ofNat 0xFEFF) then String.ofList (text.toList.drop 1) else text
  let size := body.length + 1
  let ls ← Reader.readAll (lines size (size + 1)) body
  let (_, items) ← ls.foldlM addLine ([], [])
  return settings items

end Interruptible.Config.Toml
