/-!
# Files

The files of a directory, as texts under paths, and where a path leads. A path is looked up part by part: what is passed on the
way must be a directory, and nothing outside of the directory can be reached.
-/

namespace Interruptible.Config

/-- The files of a directory: the parts of each path, and the text. -/
structure Files where
  entries : List (List String × String) := []
deriving Inhabited

namespace Files

/-- Whether a part of a path stays where it is. -/
def isHere (part : String) : Bool := part == "" || part == "."

/-- The files under the given paths. -/
def ofList (files : List (String × String)) : Files where
  entries := files.map fun f => ((f.1.splitOn "/").filter fun part => !isHere part, f.2)

/-- Whether a place is the directory itself or lies on the way to a file. -/
def isDirectory (fs : Files) (place : List String) : Bool :=
  place.isEmpty || fs.entries.any fun e => e.1.length > place.length && e.1.take place.length == place

/-- Where the parts of a path lead from a place. -/
def walk (fs : Files) : List String → List String → Option (List String)
  | place, [] => some place
  | place, part :: rest =>
    if !fs.isDirectory place then none
    else if isHere part then fs.walk place rest
    else if part == ".." then
      if place.isEmpty then none else fs.walk place.dropLast rest
    else fs.walk (place ++ [part]) rest

/-- The text of the file at a path, if there is one. -/
def read? (fs : Files) (path : String) : Option String :=
  match path.splitOn "/" with
  | "" :: _ => none
  | parts => (fs.walk [] parts).bind fun place => fs.entries.lookup place

end Files

/-! ## Names of files -/

/-- A path without the parts at its end that stay where they are, unless it ends with no name at all. -/
def namedPath? (path : String) : Option String :=
  match (path.splitOn "/").reverse.dropWhile Files.isHere with
  | [] | ".." :: _ => none
  | parts => some ("/".intercalate parts.reverse)

/-- The extension of a file's name: what follows the last point, unless the name starts with that point. -/
def extension? (path : String) : Option String :=
  match (((path.splitOn "/").getLastD "").splitOn ".").reverse with
  | [] | [_] | [_, ""] => none
  | ext :: _ => some ext

end Interruptible.Config
