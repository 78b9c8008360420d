/-!
# Tables

Finite maps from names to things, as lists of pairs with one entry for each name. Setting a name that is there replaces its
entry and keeps its place.
-/

namespace Interruptible

/-- A finite map from names. -/
structure Table (α : Type) where
  entries : List (String × α) := []
deriving Inhabited, Repr, DecidableEq

namespace Table

variable {α : Type}

/-- The table without entries. -/
def empty : Table α := {}

/-- What stands under a name. -/
def find? (t : Table α) (name : String) : Option α := t.entries.lookup name

/-- Puts an entry into a list of entries, in the place of one of the same name if there is one. -/
def setEntry (name : String) (a : α) : List (String × α) → List (String × α)
  | [] => [(name, a)]
  | (n, b) :: rest => if n = name then (name, a) :: rest else (n, b) :: setEntry name a rest

/-- Puts a thing under a name. -/
def set (t : Table α) (name : String) (a : α) : Table α := { entries := setEntry name a t.entries }

/-- The entries of both tables; where both have one of a name, that of the second. -/
def merge (t other : Table α) : Table α := other.entries.foldl (fun t e => t.set e.1 e.2) t

/-- The table with the given entries, set in order. -/
def ofList (entries : List (String × α)) : Table α := empty.merge { entries }

/-- The number of entries. -/
def size (t : Table α) : Nat := t.entries.length

/-- Takes a name out. -/
def erase (t : Table α) (name : String) : Table α := { entries := t.entries.filter fun e => e.1 != name }

end Table

end Interruptible
