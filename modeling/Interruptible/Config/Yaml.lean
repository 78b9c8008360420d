import Interruptible.Config.Setting

/-!
# YAML

Reads one document of block mappings and block sequences, told apart by indentation, with flow collections, quoted and plain
scalars and block scalars as leaves. A plain scalar is read as what it looks like: null, a flag, a number, or else a string.
Of two entries of one name the later one stays. Anchors, aliases, tags, complex keys and null as a key are refused.
-/

namespace Interruptible.Config.Yaml

open Interruptible.Text
open Interruptible.Decimal

/-- A line: how far it is indented, and the rest of it. -/
structure Line where
  indent : Nat
  content : List Char
deriving Inhabited

/-- A reader of lines. -/
abbrev LineReader := StateT (List Line) Option

/-- Whether a character is a blank within a line. -/
def isBlank (c : Char) : Bool := c == ' ' || c == '\t'

/-- Whether nothing but blanks and a comment is left. -/
def isVoid (cs : List Char) : Bool :=
  match cs.dropWhile isBlank with
  | [] => true
  | c :: _ => c == '#'

/-- Splits a text into its lines. -/
def linesOf (text : String) : List Line :=
  (text.splitOn "\n").map fun l =>
    let cs := l.toList
    let cs := if cs.getLast? == some '\r' then cs.dropLast else cs
    { indent := (cs.takeWhile (· == ' ')).length, content := cs.dropWhile (· == ' ') }

/-- Drops blanks at the end. -/
def trimRight (cs : List Char) : List Char := (cs.reverse.dropWhile isBlank).reverse

/-- A text up to a comment, which follows a blank. -/
def beforeComment : List Char → List Char
  | [] => []
  | ' ' :: '#' :: _ => []
  | '\t' :: '#' :: _ => []
  | c :: rest => c :: beforeComment rest

/-! ## Scalars -/

/-- A number in a base, after a two-letter marker. -/
def based? (marker : String) (base : Nat) (s : String) : Option Int :=
  if s.startsWith marker then
    let ds := s.toList.drop 2
    let n := numberOf base ds
    if !ds.isEmpty && ds.all (fun c => ((hexValue? c).getD 16) < base) && n < 9223372036854775808 then some n else none
  else none

/-- An integer in one of its written forms. -/
def integer? (s : String) : Option Int :=
  based? "0x" 16 s <|> based? "0o" 8 s <|> readInt64? s

/-- What a plain scalar stands for. The dotted words for infinity and for no number are refused. -/
def plain? (s : String) : Option Setting :=
  match s with
  | "" | "~" | "null" => some .nil
  | "true" => some (.bool true)
  | "false" => some (.bool false)
  | _ =>
    if [".inf", ".Inf", ".INF", "+.inf", "+.Inf", "+.INF", "-.inf", "-.Inf", "-.INF", ".nan", ".NAN"].contains s then none
    else
      match integer? s with
      | some n => some (.int n)
      | none =>
        match readFloat? s with
        | some x => some (.float x)
        | none => some (.str s)

/-- A character after a backslash between double quotes. -/
def escape : Reader (List Char) := do
  let code (n : Nat) : Reader (List Char) := do
    match charOf? (numberOf 16 (← Reader.exactly isHex n)) with
    | some c => return [c]
    | none => Reader.refuse
  match ← Reader.satisfy fun _ => true with
  | '0' => return [Char.ofNat 0]
  | 'a' => return [Char.ofNat 7]
  | 'b' => return [Char.ofNat 8]
  | 't' | '\t' => return ['\t']
  | 'n' => return ['\n']
  | 'v' => return [Char.ofNat 11]
  | 'f' => return [Char.ofNat 12]
  | 'r' => return ['\r']
  | 'e' => return [Char.ofNat 27]
  | ' ' => return [' ']
  | '"' => return ['"']
  | '/' => return ['/']
  | '\\' => return ['\\']
  | 'N' => return [Char.ofNat 0x85]
  | '_' => return [Char.ofNat 0xA0]
  | 'L' => return [Char.ofNat 0x2028]
  | 'P' => return [Char.ofNat 0x2029]
  | 'x' => code 2
  | 'u' => code 4
  | 'U' => code 8
  | '\n' => do
    Reader.skip isBlank
    return []
  | _ => Reader.refuse

/-- A line break inside a scalar: one break is a space, further ones stay. -/
def folded : Reader (List Char) := do
  Reader.skip isBlank
  Reader.char '\n'
  let more ← Reader.many (do Reader.skip isBlank; Reader.char '\n')
  Reader.skip isBlank
  return if more.isEmpty then [' '] else more.map fun _ => '\n'

/-- A scalar between double quotes. -/
def doubleQuoted : Reader String := do
  Reader.char '"'
  let one : Reader (List Char) := do return [← Reader.satisfy fun c => c != '"' && c != '\\' && c != '\n']
  let escaped : Reader (List Char) := do
    Reader.char '\\'
    escape
  let cs ← Reader.many (folded <|> one <|> escaped)
  Reader.char '"'
  return String.ofList cs.flatten

/-- A scalar between apostrophes; two of them stand for one. -/
def singleQuoted : Reader String := do
  Reader.char '\''
  let one : Reader (List Char) := do return [← Reader.satisfy fun c => c != '\'' && c != '\n']
  let doubled : Reader (List Char) := do
    Reader.word "''"
    return ['\'']
  let cs ← Reader.many (folded <|> one <|> doubled)
  Reader.char '\''
  return String.ofList cs.flatten

/-- A scalar between quotes of either kind. -/
def quoted : Reader String := doubleQuoted <|> singleQuoted

/-! ## Flow collections -/

/-- Blanks, line breaks and comments inside a flow collection. -/
def gap : Reader Unit := do
  let comment : Reader Unit := do
    Reader.char '#'
    Reader.skip (· != '\n')
  let _ ← Reader.many ((do let _ ← Reader.span1 fun c => isBlank c || c == '\n') <|> comment)

/-- Whether a character ends a plain scalar inside a flow collection. -/
def isFlowMark (c : Char) : Bool := c == ',' || c == '[' || c == ']' || c == '\x7b' || c == '\x7d'

/-- A plain scalar inside a flow collection: it ends before a mark, a line break, a comment, or a colon with nothing to
belong to. -/
def flowPlain : List Char → List Char × List Char
  | [] => ([], [])
  | ':' :: rest =>
    match rest with
    | [] => ([], [':'])
    | c :: _ =>
      if isBlank c || c == '\n' || isFlowMark c then ([], ':' :: rest)
      else
        let (taken, left) := flowPlain rest
        (':' :: taken, left)
  | ' ' :: '#' :: rest => ([], ' ' :: '#' :: rest)
  | c :: rest =>
    if isFlowMark c || c == '\n' then ([], c :: rest)
    else
      let (taken, left) := flowPlain rest
      (c :: taken, left)

/-- A plain scalar inside a flow collection, at least one character long. -/
def flowScalar : Reader String := do
  let (taken, left) := flowPlain (← Reader.rest)
  let s := trimRight taken
  match s with
  | [] => Reader.refuse
  | c :: _ =>
    if "#&*!|>%@\x60".toList.contains c then Reader.refuse
    else
      set left
      return String.ofList s

/-- A value inside a flow collection, nested at most `n` deep. -/
def flow : Nat → Reader Setting
  | 0 => Reader.refuse
  | n + 1 => do
    match ← Reader.peek with
    | some '"' | some '\'' => return .str (← quoted)
    | some '[' => do
      Reader.char '['
      gap
      let items ← Reader.many (do
        let v ← flow n
        gap
        let more ← Reader.accepts (Reader.char ',')
        gap
        return (v, more))
      if (items.dropLast.all (·.2)) then pure () else Reader.refuse
      Reader.char ']'
      return .list (items.map (·.1))
    | some '\x7b' => do
      Reader.char '\x7b'
      gap
      let pairs ← Reader.many (do
        let k ← quoted <|> flowScalar
        gap
        let v ← Reader.optional do
          Reader.char ':'
          gap
          Reader.optional (flow n)
        gap
        let more ← Reader.accepts (Reader.char ',')
        gap
        return ((k, v.join.getD .nil), more))
      if (pairs.dropLast.all (·.2)) then pure () else Reader.refuse
      Reader.char '\x7d'
      return .table (pairs.foldl (fun es p => Setting.putEntry p.1.1 p.1.2 es) [])
    | _ => do
      match plain? (← flowScalar) with
      | some v => return v
      | none => Reader.refuse

/-! ## Blocks -/

/-- Skips lines that hold nothing. -/
def skipVoid : LineReader Unit := do
  set ((← get).dropWhile fun l => isVoid l.content)

/-- Whether a line opens an item of a block sequence. -/
def isItem : List Char → Bool
  | ['-'] => true
  | '-' :: c :: _ => isBlank c
  | _ => false

/-- Splits a plain key from what follows its colon. -/
def splitPlainKey : List Char → Option (List Char × List Char)
  | [] => none
  | ':' :: rest =>
    match rest with
    | [] => some ([], [])
    | c :: _ => if isBlank c then some ([], rest) else (splitPlainKey rest).map fun p => (':' :: p.1, p.2)
  | ' ' :: '#' :: _ => none
  | c :: rest => (splitPlainKey rest).map fun p => (c :: p.1, p.2)

/-- Splits the key of a block mapping from what follows its colon. A key that stands for null is none. -/
def splitKey (cs : List Char) : Option (String × List Char) :=
  match cs with
  | '"' :: _ | '\'' :: _ =>
    match quoted.run cs with
    | some (k, rest) =>
      match rest.dropWhile isBlank with
      | ':' :: after => if after.isEmpty || after.head?.any isBlank then some (k, after) else none
      | _ => none
    | none => none
  | c :: _ =>
    if "[]\x7b\x7d,#&*!|>%@\x60".toList.contains c then none
    else do
      let (key, rest) ← splitPlainKey cs
      let key := String.ofList (trimRight key)
      match plain? key with
      | some .nil | none => none
      | some _ => return (key, rest)
  | [] => none

/-- The further lines of a plain scalar, which are indented at least as far as given. -/
def continuation (minIndent : Nat) : Nat → LineReader (List (List Char))
  | 0 => return []
  | n + 1 => do
    match ← get with
    | l :: rest =>
      if isVoid l.content then
        match rest.dropWhile fun l => isVoid l.content with
        | next :: _ =>
          if next.indent ≥ minIndent && l.content.all isBlank then
            set rest
            return [] :: (← continuation minIndent n)
          else return []
        | [] => return []
      else if l.indent ≥ minIndent then
        if (splitKey l.content).isSome then failure
        set rest
        return trimRight (beforeComment l.content) :: (← continuation minIndent n)
      else return []
    | [] => return []

/-- Joins the lines of a plain scalar: a line break is a space, and an empty line is a line break. -/
def foldLines (first : List Char) (more : List (List Char)) : List Char :=
  let step (acc : List Char × Bool) (l : List Char) : List Char × Bool :=
    if l.isEmpty then (acc.1 ++ ['\n'], true)
    else (acc.1 ++ (if acc.2 then l else ' ' :: l), false)
  (more.foldl step (first, false)).1

/-- A value that starts within a line: quoted, a flow collection, or plain, maybe going on in further lines. -/
def inlineValue (start : List Char) (minIndent : Nat) : LineReader Setting := do
  let lines ← get
  match start with
  | c :: _ =>
    if c == '"' || c == '\'' || c == '[' || c == '\x7b' then
      let raw := start ++ lines.flatMap fun l => '\n' :: (List.replicate l.indent ' ' ++ l.content)
      match (flow (raw.length + 1)).run raw with
      | some (v, left) =>
        let (tail, below) := left.span (· != '\n')
        if isVoid tail && !(tail.head? == some '#') then
          set (lines.drop (lines.length - below.count '\n'))
          return v
        else failure
      | none => failure
    else if "&*!|>%@\x60,]\x7d".toList.contains c then failure
    else if (splitPlainKey start).isSome then failure
    else
      let more ← continuation minIndent (lines.length + 1)
      match plain? (String.ofList (foldLines (trimRight (beforeComment start)) more)) with
      | some v => return v
      | none => failure
  | [] => failure

/-- How a block scalar treats the line breaks at its end. -/
inductive Chomp where
  | clip
  | strip
  | keep
deriving Inhabited, DecidableEq

/-- The marks after the sign of a block scalar: the treatment of its end, and an explicit indentation. -/
def blockHeader (cs : List Char) : Option (Chomp × Option Nat) :=
  (beforeComment (' ' :: cs)).foldlM
    (fun (acc : Chomp × Option Nat) c =>
      if c == '-' then some (.strip, acc.2)
      else if c == '+' then some (.keep, acc.2)
      else if '1' ≤ c && c ≤ '9' then some (acc.1, some (c.toNat - '0'.toNat))
      else if isBlank c then some acc
      else none)
    (.clip, none)

/-- A block scalar whose lines are indented further than its parent. -/
def blockScalar (fold : Bool) (header : List Char) (parent : Nat) : LineReader Setting := do
  let some (chomp, explicit) := blockHeader header | failure
  let lines ← get
  let isEmpty (l : Line) : Bool := l.content.isEmpty
  let found := ((lines.find? fun l => !isEmpty l).map (·.indent)).getD 0
  let indent := match explicit with
    | some n => parent + n
    | none => max found (parent + 1)
  let (body, rest) := lines.span fun l => isEmpty l || l.indent ≥ indent
  set rest
  let texts := body.map fun l => List.replicate (l.indent - indent) ' ' ++ l.content
  let trailing := (texts.reverse.takeWhile (·.isEmpty)).length
  let kept := texts.take (texts.length - trailing)
  let joined : List Char :=
    if fold then
      match kept with
      | [] => []
      | first :: more => foldLines first more
    else (kept.intersperse ['\n']).flatten
  let ending : List Char := match chomp with
    | .strip => []
    | .clip => if kept.isEmpty then [] else ['\n']
    | .keep => (if kept.isEmpty then [] else ['\n']) ++ List.replicate (trailing - 1) '\n'
  return .str (String.ofList (joined ++ ending))

/-- Whether a value is a block scalar, and whether its lines are folded. -/
def blockSign? : List Char → Option (Bool × List Char)
  | '|' :: rest => some (false, rest)
  | '>' :: rest => some (true, rest)
  | _ => none

mutual
/-- A node whose lines are indented at least as far as given; nothing is null. The number bounds the work. -/
def node : Nat → Nat → LineReader Setting
  | 0, _ => failure
  | n + 1, minIndent => do
    skipVoid
    match ← get with
    | [] => return .nil
    | l :: rest =>
      if l.indent < minIndent then return .nil
      else if l.content.head? == some '\t' then failure
      else if isItem l.content then return .list (← items n l.indent)
      else if (splitKey l.content).isSome then
        return .table ((← pairs n l.indent).foldl (fun es p => Setting.putEntry p.1 p.2 es) [])
      else
        set rest
        match blockSign? l.content with
        | some (fold, header) => blockScalar fold header (minIndent - 1)
        | none => inlineValue l.content minIndent

/-- The items of a block sequence. -/
def items : Nat → Nat → LineReader (List Setting)
  | 0, _ => failure
  | n + 1, indent => do
    skipVoid
    match ← get with
    | [] => return []
    | l :: rest =>
      if l.indent < indent then return []
      else if l.indent > indent then failure
      else if !isItem l.content then return []
      else
        let after := l.content.drop 1
        let blanks := (after.takeWhile isBlank).length
        let content := after.drop blanks
        if isVoid content then set rest else set ({ indent := indent + 1 + blanks, content } :: rest)
        let v ← node n (indent + 1)
        return v :: (← items n indent)

/-- The pairs of a block mapping. -/
def pairs : Nat → Nat → LineReader (List (String × Setting))
  | 0, _ => failure
  | n + 1, indent => do
    skipVoid
    match ← get with
    | [] => return []
    | l :: rest =>
      if l.indent < indent then return []
      else if l.indent > indent then failure
      else
        match splitKey l.content with
        | none => failure
        | some (k, after) =>
          set rest
          let start := after.dropWhile isBlank
          let v ← (if isVoid start then do
              skipVoid
              match ← get with
              | next :: _ =>
                if next.indent == indent && isItem next.content then return .list (← items n indent)
                else node n (indent + 1)
              | [] => return .nil
            else
              match blockSign? start with
              | some (fold, header) => blockScalar fold header indent
              | none => inlineValue start (indent + 1) : LineReader Setting)
          return (k, v) :: (← pairs n indent)
end

/-! ## Documents -/

/-- Whether a line is a mark between documents. -/
def isMark (mark : String) (l : Line) : Bool :=
  l.indent == 0 && l.content.take 3 == mark.toList && ((l.content.drop 3).head?.all isBlank)

/-- The entries of the one document of a text; a text without a document has none. -/
def read? (text : String) : Option (List (String × Setting)) :=
  let body := if text.toList.head? == some (Char.ofNat 0xFEFF) then String.ofList (text.toList.drop 1) else text
  let lines := (linesOf body).dropWhile fun l => isVoid l.content || (l.indent == 0 && l.content.head? == some '%')
  let opened := lines.head?.any (isMark "---")
  let lines := match lines with
    | l :: rest => if opened then Line.mk 4 ((l.content.drop 3).dropWhile isBlank) :: rest else l :: rest
    | [] => []
  let (document, after) := lines.span fun l => !isMark "---" l && !isMark "..." l
  if after.any (fun l => !isVoid l.content && !isMark "..." l) then none
  else if !opened && document.all (fun l => isVoid l.content) then some []
  else
    let read : LineReader Setting := do
      let v ← node (2 * body.length + 2) 0
      skipVoid
      if (← get).isEmpty then return v else failure
    match read.run document with
    | some (.table es, _) => some es
    | _ => none

end Interruptible.Config.Yaml
