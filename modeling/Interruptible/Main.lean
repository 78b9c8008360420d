import Interruptible.CommandLine.Run

/-!
# The program

Reads the environment and the files that a command can need, and prints what the command prints.
-/

namespace Interruptible.Main

open Interruptible.CommandLine

/-- The text of a file, if it can be read. -/
def textOf? (path : String) : IO (Option String) := do
  try
    return some (← IO.FS.readFile path)
  catch _ => return none

/-- Splits an assignment at its first equals sign. -/
def assignment? (s : String) : Option (String × String) :=
  let (name, rest) := s.toList.span (· != '=')
  match rest with
  | _ :: value => some (String.ofList name, String.ofList value)
  | [] => none

/-- The environment variables of this process. -/
def environment : IO (List (String × String)) := do
  let text := (← textOf? "/proc/self/environ").getD ""
  return (text.splitOn "\x00").filterMap assignment?

/-- The texts of those files that can be read. -/
def textsOf (paths : List String) : IO (List (String × String)) := do
  return (← paths.mapM fun path => do return (← textOf? path).map (path, ·)).filterMap id

/-- Everything that arguments can need to know. -/
def sourcesFor (args : List String) : IO Config.Sources := do
  let env ← environment
  let named := (← textOf? variableFile).map (variableFile, ·)
  let full := withVariableFile env (named.map (·.2))
  let request := match Invocation.ofArguments args with
    | .ok i => i.request
    | .error _ => {}
  let texts := named.toList ++ (← textsOf (({ env := full } : Config.Sources).candidates request))
  return { fileAt := fun path => texts.lookup path, env }

end Interruptible.Main

/-- Runs the command that the arguments ask for. -/
def main (args : List String) : IO UInt32 := do
  let e := Interruptible.CommandLine.process args (← Interruptible.Main.sourcesFor args)
  IO.print e.printed.toText
  IO.eprint e.complaint
  return e.code.toUInt32
