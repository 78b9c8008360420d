import Interruptible.CauseQuery

/-!
# Composing causes step by step

A script that keeps one cause, starts with the empty one, and composes it with others.
-/

namespace Interruptible.Script

/-- A step that changes the cause at hand. -/
inductive CauseStep where
  | andThen (c : Cause Value)
  | andThenLeft (c : Cause Value)
  | beside (c : Cause Value)
  | besideLeft (c : Cause Value)
  /-- Put every typed failure into an array behind a value. -/
  | mapWrap (w : Value)
  /-- Keep the leftmost typed failure, or the cause that has none. -/
  | rest
deriving Inhabited

/-- The cause after a step. -/
def CauseStep.apply (c : Cause Value) : CauseStep → Cause Value
  | .andThen d => c.andThen d
  | .andThenLeft d => d.andThen c
  | .beside d => c.beside d
  | .besideLeft d => d.beside c
  | .mapWrap w => c.map fun e => .arr [w, e]
  | .rest =>
    match c.failureOr with
    | .ok e => .fail e
    | .error remaining => remaining

/-- The causes after each of the steps. -/
def causesAfter (steps : List CauseStep) : List (Cause Value) :=
  let (_, after) := steps.foldl
    (fun (acc : Cause Value × List (Cause Value)) step =>
      let c := step.apply acc.1
      (c, c :: acc.2))
    (.empty, [])
  after.reverse

end Interruptible.Script
