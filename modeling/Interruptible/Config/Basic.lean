import Interruptible.Config.Setting

/-!
# Configuration

What can be configured: after how many nodes an interpreter yields, and what is logged. A configuration is made from settings;
what they do not mention has its default. An interval of zero can be written down but is not valid.
-/

namespace Interruptible

/-- A configuration. -/
structure Config where
  /-- After how many nodes an interpreter yields. -/
  yieldInterval : Nat := 10000
  /-- What is logged, as a filter directive. -/
  filter : String := "info"
deriving Inhabited, Repr, DecidableEq

namespace Config

/-- Why there is no configuration. -/
inductive Error where
  /-- The sources cannot be read, or hold what makes no sense. -/
  | unreadable
  /-- The file that was asked for, or another source, cannot be read or makes no sense. -/
  | unreadableFile (path : String)
  | zeroInterval
deriving Inhabited, Repr, DecidableEq

/-- The wording of an error. -/
def Error.message : Error → String
  | .unreadable => "Failed to load configuration"
  | .unreadableFile path => "Failed to load configuration from " ++ path
  | .zeroInterval => "interpreter.yield_interval must be greater than 0"

/-- A configuration is valid if its interval is positive. -/
def validate (c : Config) : Except Error Unit :=
  if c.yieldInterval = 0 then throw .zeroInterval else pure ()

/-- Reads the field of a section: the section may be missing, and so may the field. -/
def fieldOf? {α : Type} (root : Setting) (name field : String) (read : Setting → Option α) (default : α) : Option α :=
  match root.find? name with
  | none => some default
  | some s => do
    match ← s.section? field 0 with
    | none => return default
    | some v => read v

/-- The configuration that settings describe. -/
def ofSetting? (root : Setting) : Option Config := do
  let yieldInterval ← fieldOf? root "interpreter" "yield_interval" Setting.toUnsigned? ({} : Config).yieldInterval
  let filter ← fieldOf? root "logging" "filter" Setting.toText? ({} : Config).filter
  return { yieldInterval, filter }

end Config

end Interruptible
