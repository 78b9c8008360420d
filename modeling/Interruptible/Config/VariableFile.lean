import Interruptible.Text.Blank

/-!
# Files of variables

Reads a file of environment variables: a name and a value on each line, comments, values between quotes, which may go on over
several lines, and references to other variables. A variable that is set already keeps its value. Reading stops at the first
line that makes no sense; what was read before it counts.
-/

namespace Interruptible.Config.VariableFile

open Interruptible.Text

/-- Environment variables, the ones that were set first in front. -/
abbrev Variables := List (String × String)

/-- Sets a variable, unless it is set already. -/
def setNew (env : Variables) (name value : String) : Variables :=
  if (env.lookup name).isSome then env else env ++ [(name, value)]

/-! ## Lines -/

/-- Where a line stands as far as it has been read. -/
inductive Place where
  | bare
  | afterBlank
  | escaped
  | quoted (mark : Char)
  | quotedEscaped (mark : Char)
  | comment
deriving Inhabited, Repr, DecidableEq

/-- The place after one more character. -/
def Place.next (p : Place) (c : Char) : Place :=
  let opening : Place :=
    if c == '\\' then .escaped else if c == '"' || c == '\'' then .quoted c else .bare
  match p with
  | .bare => if isWhiteSpace c && c != '\n' && c != '\r' then .afterBlank else opening
  | .afterBlank => if c == '#' then .comment else opening
  | .escaped => .bare
  | .quoted mark => if c == '\\' then .quotedEscaped mark else if c == mark then .bare else .quoted mark
  | .quotedEscaped mark => .quoted mark
  | .comment => .comment

/-- Reads characters up to a comment: what comes before it, and the place at the end. -/
def scan (p : Place) : List Char → List Char × Place
  | [] => ([], p)
  | c :: rest =>
    match p.next c with
    | .comment => ([], .comment)
    | p =>
      let (taken, p) := scan p rest
      (c :: taken, p)

/-- The lines of a text, each with its line end. -/
def physicalLines (text : String) : List (List Char) :=
  let parts := (text.splitOn "\n").map String.toList
  parts.dropLast.map (· ++ ['\n']) ++ (if (parts.getLastD []).isEmpty then [] else [parts.getLastD []])

/-- Joins lines with an open quote to those that follow. A text that ends within a line has no meaning from there on. -/
def logicalLines : Place → List Char → List (List Char) → List (Option (List Char))
  | .bare, _, [] => []
  | _, _, [] => [none]
  | p, start, line :: rest =>
    if (trimStart (start ++ line)).head? == some '#' then some [] :: logicalLines .bare [] rest
    else
      match scan p line with
      | (taken, .bare) | (taken, .comment) => some (start ++ taken) :: logicalLines .bare [] rest
      | (taken, p) => logicalLines p (start ++ taken) rest

/-! ## Values -/

/-- What a character of a value means. The flag tells whether the value is between quotes at that point. -/
inductive Mode where
  | plain (quoted : Bool)
  | literal
  | escaped (quoted : Bool)
  /-- In the name of a variable, which ends with the first character that is no letter and no digit. -/
  | name (quoted : Bool) (taken : List Char)
  /-- In the name of a variable between braces. -/
  | bracedName (quoted : Bool) (taken : List Char)
  /-- After the value: only blanks and a comment may follow. -/
  | after
deriving Inhabited, Repr, DecidableEq

/-- Whether a character may stand in the name of a variable without braces. -/
def isNameChar (c : Char) : Bool := c.isAlphanum || (c.toNat > 127 && !isWhiteSpace c)

/-- The value of a variable, backwards; one that is not set has none. -/
def valueOf (env : Variables) (taken : List Char) : List Char :=
  ((env.lookup (String.ofList taken.reverse)).getD "").toList.reverse

/-- Reads a value; what has been read so far stands backwards. -/
def value? (env : Variables) : Mode → List Char → List Char → Option (List Char)
  | .plain false, out, [] | .escaped false, out, [] | .after, out, [] => some out.reverse
  | .name false taken, out, [] => some (valueOf env taken ++ out).reverse
  | _, _, [] => none
  | .after, out, c :: rest =>
    if c == ' ' || c == '\t' then value? env .after out rest
    else if c == '#' then some out.reverse
    else none
  | .escaped quoted, out, c :: rest =>
    if "\\'\"$ ".toList.contains c then value? env (.plain quoted) (c :: out) rest
    else if c == 'n' then value? env (.plain quoted) ('\n' :: out) rest
    else none
  | .literal, out, c :: rest =>
    if c == '\'' then value? env (.plain false) out rest else value? env .literal (c :: out) rest
  | .name quoted taken, out, c :: rest =>
    if isNameChar c then value? env (.name quoted (c :: taken)) out rest
    else if c == '\x7b' && taken.isEmpty then value? env (.bracedName quoted []) out rest
    else if c == '$' then value? env (.name quoted []) (valueOf env taken ++ out) rest
    else value? env (.plain quoted) (c :: (valueOf env taken ++ out)) rest
  | .bracedName quoted taken, out, c :: rest =>
    if c == '\x7d' then value? env (.plain quoted) (valueOf env taken ++ out) rest
    else value? env (.bracedName quoted (c :: taken)) out rest
  | .plain quoted, out, c :: rest =>
    if c == '$' then value? env (.name quoted []) out rest
    else if c == '\\' then value? env (.escaped quoted) out rest
    else if quoted then
      if c == '"' then value? env (.plain false) out rest else value? env (.plain true) (c :: out) rest
    else if c == '\'' then value? env .literal out rest
    else if c == '"' then value? env (.plain true) out rest
    else if c == ' ' || c == '\t' then value? env .after out rest
    else value? env (.plain false) (c :: out) rest

/-! ## Assignments -/

/-- Takes a name from the front of a line, and the blanks after it. -/
def takeName? (cs : List Char) : Option (List Char × List Char) :=
  match cs with
  | c :: _ =>
    if c.isAlpha || c == '_' then
      let (name, rest) := cs.span fun c => c.isAlphanum || c == '_' || c == '.'
      some (name, trimStart rest)
    else none
  | [] => none

/-- Takes a name and the sign after it; the word `export` in front of a name counts for nothing. -/
def takeTarget? (cs : List Char) : Option (List Char × List Char) := do
  let (name, rest) ← takeName? cs
  match rest with
  | '=' :: value => return (name, value)
  | _ =>
    if name != "export".toList then none
    else
      match ← takeName? rest with
      | (name, '=' :: value) => return (name, value)
      | _ => none

/-- Reads a line and sets its variable. -/
def loadLine? (env : Variables) (line : List Char) : Option Variables :=
  match trimStart (trimEnd line) with
  | [] | '#' :: _ => some env
  | cs => do
    let (name, rest) ← takeTarget? cs
    let name := String.ofList name
    match trimStart rest with
    | [] | '#' :: _ => return setNew env name ""
    | cs => return setNew env name (String.ofList (← value? env (.plain false) [] cs))

/-- Reads lines until one makes no sense. -/
def loadLines (env : Variables) : List (Option (List Char)) → Variables
  | [] | none :: _ => env
  | some line :: rest =>
    match loadLine? env line with
    | some env => loadLines env rest
    | none => env

/-- Sets the variables of a file. -/
def load (env : Variables) (text : String) : Variables :=
  let text := if text.toList.head? == some (Char.ofNat 0xFEFF) then String.ofList (text.toList.drop 1) else text
  loadLines env (logicalLines .bare [] (physicalLines text))

end Interruptible.Config.VariableFile
