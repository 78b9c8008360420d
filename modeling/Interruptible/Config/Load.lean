import Interruptible.Config.Basic
import Interruptible.Config.Files
import Interruptible.Config.Toml
import Interruptible.Config.Yaml
import Interruptible.Config.Ini
import Interruptible.Config.Ron

/-!
# Loading a configuration

A configuration is put together from layers: a file, then environment variables, then what the caller asks for. Later layers
take precedence leaf by leaf. The file is the one that the caller or the environment names, which then must be there, or else
one of the default name, which may be missing. A file that is there must be well-formed even if nothing of it counts.
-/

namespace Interruptible.Config

open Interruptible.Text
open Interruptible.Decimal

/-! ## Files -/

/-- The extensions of configuration files. -/
def extensions : List String := ["toml", "json", "yaml", "yml", "ini", "ron", "json5"]

/-- Reads a text in the format of an extension. -/
def readFormat? (ext : String) (text : String) : Option (List (String × Setting)) :=
  match ext with
  | "toml" => Toml.read? text
  | "json" => Json.read? text
  | "yaml" | "yml" => Yaml.read? text
  | "ini" => Ini.read? text
  | "ron" => Ron.read? text
  | "json5" => Json5.read? text
  | _ => none

/-- The paths with a known extension that a path without it may stand for, each with its extension. -/
def extended (path : String) : List (String × String) :=
  match namedPath? path with
  | some stem => extensions.map fun ext => (ext, stem ++ "." ++ ext)
  | none => []

/-- Finds a configuration file: its extension and its text. A file of exactly that name must have a known extension; otherwise
the extensions are tried one after the other. -/
def locate? (fileAt : String → Option String) (path : String) : Option (String × String) :=
  match fileAt path with
  | some text =>
    match extension? path with
    | some ext => if extensions.contains ext then some (ext, text) else none
    | none => none
  | none => (extended path).findSome? fun (ext, path) => (fileAt path).map (ext, ·)

/-- The settings of a file. One that may be missing and is missing has none. -/
def fileLayer? (fileAt : String → Option String) (path : String) (required : Bool) : Option (List (String × Setting)) :=
  match locate? fileAt path with
  | some (ext, text) => readFormat? ext text
  | none => if required then none else some []

/-! ## Environment variables -/

/-- What the names of the environment variables that count start with, in small letters. -/
def variablePrefix : String := "eddy_"

/-- The variable that names the configuration file. -/
def pathVariable : String := "EDDY_CONFIG_PATH"

/-- The name of the file that is looked for if none is named. -/
def defaultName : String := "eddy"

/-- The value of a variable as what it looks like: a flag, an integer, a float, or else a string. -/
def variableSetting (value : String) : Setting :=
  match lower value with
  | "true" => .bool true
  | "false" => .bool false
  | _ =>
    match readInt64? value with
    | some n => .int n
    | none =>
      match readFloat? value with
      | some x => .float x
      | none => .str value

/-- The settings of the environment: names count without regard to case, and two underscores separate the parts of a name. -/
def environmentLayer (env : List (String × String)) : List (String × Setting) :=
  env.filterMap fun (name, value) =>
    let name := lower name
    if name.startsWith variablePrefix then
      some (".".intercalate ((String.ofList (name.toList.drop variablePrefix.length)).splitOn "__"), variableSetting value)
    else none

/-! ## Requests -/

/-- What the caller asks for. -/
structure Request where
  /-- The file to read instead of looking for one. -/
  path : Option String := none
  yieldInterval : Option Nat := none
  filter : Option String := none
deriving Inhabited, Repr, DecidableEq

/-- The settings of a request. -/
def Request.layer (r : Request) : List (String × Setting) :=
  (r.yieldInterval.map fun n => ("interpreter.yield_interval", Setting.int n)).toList
    ++ (r.filter.map fun s => ("logging.filter", Setting.str s)).toList

/-- Where configurations come from: the texts of files by their paths, and environment variables. -/
structure Sources where
  fileAt : String → Option String := fun _ => none
  env : List (String × String) := []
deriving Inhabited

/-- The file that is asked for, by the caller or else by the environment. -/
def Sources.explicitPath? (s : Sources) (r : Request) : Option String :=
  r.path <|> s.env.lookup pathVariable

/-- The path of the configuration file, or its beginning. -/
def Sources.path (s : Sources) (r : Request) : String := (s.explicitPath? r).getD defaultName

/-- All paths that a request can lead to. -/
def Sources.candidates (s : Sources) (r : Request) : List String := s.path r :: (extended (s.path r)).map (·.2)

/-- All settings, the later layers merged over the earlier ones. -/
def Sources.setting? (s : Sources) (r : Request) : Option Setting := do
  let file ← fileLayer? s.fileAt (s.path r) (s.explicitPath? r).isSome
  return (((Setting.table []).mergeLayer file).mergeLayer (environmentLayer s.env)).mergeLayer r.layer

/-- Loads a configuration, which is valid. -/
def Sources.load (s : Sources) (r : Request) : Except Error Config :=
  match (s.setting? r).bind ofSetting? with
  | none =>
    match s.explicitPath? r with
    | some path => throw (.unreadableFile path)
    | none => throw .unreadable
  | some c => do
    c.validate
    return c

end Interruptible.Config
