import Interruptible.Defect

/-!
# Records

What the runtime reports about its own work, with a level for each kind of record and its text.
-/

namespace Interruptible

/-- How much detail a record carries, the most important first. -/
inductive Level where
  | warn
  | debug
  | trace
deriving Inhabited, Repr, DecidableEq

/-- The rank of a level; a higher rank is more detail. -/
def Level.rank : Level → Nat
  | .warn => 0
  | .debug => 1
  | .trace => 2

/-- The word for a level. -/
def Level.name : Level → String
  | .warn => "WARN"
  | .debug => "DEBUG"
  | .trace => "TRACE"

/-- Something that the runtime did. -/
inductive Record where
  | runStarted
  | runSettled (outcome : String)
  | step (node : String) (frames : Nat)
  | yielding (instructions : Nat)
  | selfInterrupted
  | unwinding (pendingFrames instructions : Nat)
  | finalizerFailed
  | joining (branches : Nat)
  | branchFailed (pending : Nat)
  | tripped (listeners : Nat)
  | listenerPanicked (p : Panic)
  | futureSkipped
  | draining (inFlight : Nat)
  | forgotten (count : Nat)
deriving Inhabited, Repr, DecidableEq

namespace Record

/-- The level of a record. -/
def level : Record → Level
  | .finalizerFailed | .listenerPanicked _ => .warn
  | .step _ _ | .yielding _ | .futureSkipped => .trace
  | _ => .debug

/-- What a record says. -/
def message : Record → String
  | .runStarted => "Run started"
  | .runSettled outcome => "Run settled outcome=" ++ outcome
  | .step node frames => "Step node=" ++ node ++ " frames=" ++ toString frames
  | .yielding n => "Yielding to the scheduler instructions=" ++ toString n
  | .selfInterrupted => "Effect interrupted itself"
  | .unwinding frames n =>
    "Unwinding interrupted run pending_frames=" ++ toString frames ++ " instructions=" ++ toString n
  | .finalizerFailed => "Finalizer failed"
  | .joining n => "Joining concurrent group branches=" ++ toString n
  | .branchFailed n => "Branch failed, interrupting siblings pending=" ++ toString n
  | .tripped n => "Interrupt token tripped listeners=" ++ toString n
  | .listenerPanicked p => "Interrupt listener panicked panic=" ++ p.display
  | .futureSkipped => "Token interrupted before the host future started"
  | .draining n => "Draining runs in_flight=" ++ toString n
  | .forgotten n => "Registry reset forgotten=" ++ toString n

/-- A record as one line: its level and what it says. -/
def text (r : Record) : String := r.level.name ++ " " ++ r.message

/-- Whether a record is shown at a level of detail. -/
def shownAt (l : Level) (r : Record) : Bool := r.level.rank ≤ l.rank

end Record

end Interruptible
