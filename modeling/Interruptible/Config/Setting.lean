import Interruptible.Decimal.Reading
import Interruptible.Decimal.Shortest

/-!
# Settings

What configuration files and environment variables hold before it is known what it means: a tree of tables and lists over
scalars. Layers of settings are merged leaf by leaf, later ones over earlier ones, and names count without regard to case.
The conversions at the end are lenient in fixed ways: a number may be written as a string, a flag, or with a fraction.
-/

namespace Interruptible.Config

open Interruptible.Text
open Interruptible.Decimal

/-- A tree of settings. -/
inductive Setting where
  | nil
  | bool (b : Bool)
  | int (n : Int)
  | float (x : Float)
  | str (s : String)
  | list (items : List Setting)
  | table (entries : List (String × Setting))
deriving Inhabited

namespace Setting

/-- The entries of a table; anything else has none. -/
def entries : Setting → List (String × Setting)
  | .table es => es
  | _ => []

/-- What stands under a name, if the setting is a table. -/
def find? (s : Setting) (name : String) : Option Setting := s.entries.lookup name

/-- Puts an entry into a list of entries, in the place of one of the same name. -/
def putEntry (name : String) (v : Setting) : List (String × Setting) → List (String × Setting)
  | [] => [(name, v)]
  | (n, w) :: rest => if n = name then (name, v) :: rest else (n, w) :: putEntry name v rest

/-- Makes a setting a table, if it is none, and puts an entry into it. -/
def put (root : Setting) (name : String) (v : Setting) : Setting := .table (putEntry name v root.entries)

mutual
/-- Merges a setting into what stands under a name: tables are merged entry by entry, all else takes the place of what was
there. -/
def merge (root : Setting) (name : String) : Setting → Setting
  | .table incoming => root.put (lower name) (mergeAll ((root.find? (lower name)).getD (.table [])) incoming)
  | v => root.put (lower name) v

/-- Merges entries into a setting, one after the other. -/
def mergeAll (target : Setting) : List (String × Setting) → Setting
  | [] => target
  | (k, v) :: rest => mergeAll (target.merge k v) rest
end

/-- Puts a setting into a list, which is filled up with nulls as far as needed. A negative position counts from the end; one
that lies before the list leaves it as it is. -/
def putAt (items : List Setting) (position : Int) (v : Setting) : List Setting :=
  let i := if position < 0 then position + items.length else position
  if i < 0 then items
  else (items ++ List.replicate (i.toNat + 1 - items.length) Setting.nil).set i.toNat v

/-- What stands at a position of a list, or null. -/
def getAt (items : List Setting) (position : Int) : Setting :=
  let i := if position < 0 then position + items.length else position
  if i < 0 then .nil else items[i.toNat]?.getD .nil

/-- The items of a list; anything else has none. -/
def items : Setting → List Setting
  | .list vs => vs
  | _ => []

/-- A step of a path: an entry of a table, or an item of a list. -/
inductive Step where
  | name (name : String)
  | position (position : Int)
deriving Inhabited, Repr, DecidableEq

/-- Merges a setting into the place that a path leads to. What is in the way and is no table becomes one, and so with lists.
Into a list nothing is merged: what stood at the position is replaced. -/
def mergeAt (root : Setting) : List Step → Setting → Setting
  | [], _ => root
  | [.name name], v => root.merge name v
  | [.position i], v => .list (putAt root.items i v)
  | .name name :: path, v => root.put (lower name) (((root.find? (lower name)).getD .nil).mergeAt path v)
  | .position i :: path, v => .list (putAt root.items i ((getAt root.items i).mergeAt path v))

end Setting

/-! ## Names that are paths -/

/-- Whether a character may stand in a part of a path. -/
def isNamePart (c : Char) : Bool := c.isAlphanum || c == '_' || c == '-' || c == ' '

/-- A name within a path. -/
def readStepName : Reader Setting.Step := do return .name (String.ofList (← Reader.span1 isNamePart))

/-- A position between brackets. -/
def readStepPosition : Reader Setting.Step := do
  Reader.char '['
  Reader.skip (· == ' ')
  let sign ← if ← Reader.accepts (Reader.char '-') then pure ['-'] else pure []
  let digits ← Reader.span1 isDigit
  Reader.skip (· == ' ')
  Reader.char ']'
  match readInt64? (String.ofList (sign ++ digits)) with
  | some i => return .position i
  | none => Reader.refuse

/-- A path: a name, and then names behind points and positions between brackets. -/
def readPath : Reader (List Setting.Step) := do
  let first ← readStepName
  let others ← Reader.many ((do Reader.char '.'; readStepName) <|> readStepPosition)
  return first :: others

/-- The path that a name says; a name that says none is a single step as it stands. -/
def pathOf (name : String) : List Setting.Step := (Reader.readAll readPath name).getD [.name name]

/-- Merges the entries of a layer into settings. Names at the top of a layer may be paths. -/
def Setting.mergeLayer (root : Setting) (layer : List (String × Setting)) : Setting :=
  layer.foldl (fun root e => root.mergeAt (pathOf e.1) e.2) root

/-! ## Conversions -/

/-- A number of 32 bits without a sign. Flags count as one and zero, fractions are rounded with halves away from zero, what
lies below zero as a fraction counts as zero, and strings hold a number or a word for a flag. -/
def Setting.toUnsigned? (s : Setting) : Option Nat :=
  let bounded (n : Nat) : Option Nat := if n < 4294967296 then some n else none
  match s with
  | .int (.ofNat n) => bounded n
  | .bool b => some b.toNat
  | .float x => if x < 4294967296.0 || x.isNaN then bounded x.round.toUInt64.toNat else none
  | .str t =>
    if ["true", "on", "yes"].contains (lower t) then some 1
    else if ["false", "off", "no"].contains (lower t) then some 0
    else (readUnsigned? 64 t).bind bounded
  | _ => none

/-- A text. Flags and numbers are written out. -/
def Setting.toText? : Setting → Option String
  | .str t => some t
  | .bool b => some (toString b)
  | .int n => some (toString n)
  | .float x => some (floatText x)
  | _ => none

/-- What a field of a section holds. A section is a table, or a list that gives its fields in order. -/
def Setting.section? (s : Setting) (field : String) (position : Nat) : Option (Option Setting) :=
  match s with
  | .table es => some (es.lookup field)
  | .list items => some items[position]?
  | _ => none

end Interruptible.Config
