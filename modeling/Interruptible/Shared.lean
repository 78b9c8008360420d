import Interruptible.Config.Load

/-!
# The shared runtime

A process can have one runtime that all of it shares. It is installed once, with a configuration that is loaded at that
moment; whoever installs it again gets the one that is there. A failed attempt leaves nothing behind.
-/

namespace Interruptible

/-- The runtime of a process, described by its configuration, once it has been installed. -/
structure Shared where
  runtime : Option Config := none
deriving Inhabited, Repr, DecidableEq

namespace Shared

/-- Why there is no runtime. -/
inductive Error where
  | notInstalled
  | notLoaded (e : Config.Error)
deriving Inhabited, Repr, DecidableEq

/-- The wording of an error. -/
def Error.message : Error → String
  | .notInstalled => "Runtime not initialized. Call init::initialize() first."
  | .notLoaded e => "Failed to load configuration: " ++ e.message

/-- Whether the runtime has been installed. -/
def isInstalled (s : Shared) : Bool := s.runtime.isSome

/-- The runtime, if it has been installed. -/
def get (s : Shared) : Except Error Config :=
  match s.runtime with
  | some c => pure c
  | none => throw .notInstalled

/-- Installs the runtime, unless it is there. -/
def install (s : Shared) (sources : Config.Sources) (request : Config.Request) : Except Error Config × Shared :=
  match s.runtime with
  | some c => (pure c, s)
  | none =>
    match sources.load request with
    | .ok c => (pure c, { runtime := some c })
    | .error e => (throw (.notLoaded e), s)

end Shared

end Interruptible
