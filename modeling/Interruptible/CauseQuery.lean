import Interruptible.CauseFormat

/-!
# Questions about causes

What can be asked about a cause, under the names by which users ask, with the answers as values.
-/

namespace Interruptible

/-- A question about a cause. -/
inductive CauseQuery where
  | isEmpty
  | isInterrupted
  | isInterruptedOnly
  | hasFailure
  | failures
  | defects
  | failureOrCause
  | squash
  | map
deriving Inhabited, Repr, DecidableEq

namespace CauseQuery

/-- All questions. -/
def all : List CauseQuery :=
  [.isEmpty, .isInterrupted, .isInterruptedOnly, .hasFailure, .failures, .defects, .failureOrCause, .squash, .map]

/-- The name of a question. -/
def name : CauseQuery → String
  | .isEmpty => "is_empty"
  | .isInterrupted => "is_interrupted"
  | .isInterruptedOnly => "is_interrupted_only"
  | .hasFailure => "has_failure"
  | .failures => "failures"
  | .defects => "defects"
  | .failureOrCause => "failure_or_cause"
  | .squash => "squash"
  | .map => "map"

/-- The question of a name. -/
def ofName? (name : String) : Option CauseQuery := all.find? (·.name == name)

/-- Numbers the typed failures of a cause from left to right, starting with one. -/
def numbered (c : Cause Value) : Cause Value :=
  let count (e : Value) : StateM Int Value := fun n => (.arr [.int n, e], n + 1)
  ((c.mapM count).run 1).1

/-- The answer to a question. -/
def answer (c : Cause Value) : CauseQuery → Value
  | .isEmpty => .bool c.isEmpty
  | .isInterrupted => .bool c.isInterrupted
  | .isInterruptedOnly => .bool c.isInterruptedOnly
  | .hasFailure => .bool c.hasFailure
  | .failures => .arr c.failures
  | .defects => .arr (c.defects.map fun d => .str d.display)
  | .failureOrCause =>
    match c.failureOr with
    | .ok e => .tagged "failure" e
    | .error rest => .tagged "cause" (Cause.toValue rest)
  | .squash => c.squash.toValue
  | .map => (numbered c).toValue

end CauseQuery

end Interruptible
