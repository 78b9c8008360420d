import Interruptible.Task.System

/-!
# Scheduling

Tasks are polled one at a time, first come, first served. A poll lasts until the task has to wait; the system is at rest when
no task is ready. All bounds on the number of steps are parameters: an answer that is reached within a bound is the same for
every larger one.
-/

namespace Interruptible

namespace System

/-- Performs an action as the last thing that a task does. -/
def finishWith (s : System) (t : TaskId) (a : Action Unit) : System :=
  let (r, s) := s.inWorld a.run
  match r with
  | .ok _ => s.finish t .finished
  | .error _ => s.finish t .panicked

/-- Polls the process of a run. -/
def pollRun (turns : Nat) (s : System) (t : TaskId) (p : Process) : System :=
  let (p, s) := s.inWorld (p.poll turns)
  match p with
  | .settled e => (s.onWorld (·.record (.runSettled e.describe))).finish t (.exit e)
  | p => s.setJob t (.running p)

/-- What a drain does once it need not wait any longer. -/
def drained (s : System) (t : TaskId) (op : OperationId) (k : TrackerId) (andThen : Action Unit) : System :=
  ((s.onWorld (·.forget op)).reopen k).finishWith t andThen

/-- Waits for a run to end, as a task with a job that needs its exit. -/
def awaitRun (s : System) (op : OperationId) (run : TaskId) : Except System (Exit Value Payload) :=
  match (s.ending? run).bind Ending.runExit with
  | some e => .ok e
  | none => .error (s.onWorld (·.park (.task run) op))

/-- Does the next part of a task's job. -/
def pollJob (turns : Nat) (s : System) (t : TaskId) (op : OperationId) : Job → System
  | .launched p => pollRun turns (s.onWorld (·.record .runStarted)) t p
  | .running p => pollRun turns s t p
  | .call r n env token =>
    let (run, s) := s.execute r n env token
    (s.onWorld (·.park (.task run) op)).setJob t (.reporting run)
  | .reporting run =>
    match s.awaitRun op run with
    | .ok (.success p) => s.finish t (.reported (.ok p))
    | .ok (.failure c) => s.finish t (.reported (.error c.squash))
    | .error s => s
  | .notify run onExit =>
    match s.awaitRun op run with
    | .ok e => s.finishWith t (onExit e)
    | .error s => s
  | .future f =>
    let (r, s) := s.inWorld (f.poll op)
    match r with
    | .pending rest => s.setJob t (.future rest)
    | .settled _ => s.finish t .finished
    | .panicked _ => s.finish t .panicked
  | .drain r andThen =>
    let k := s.currentTracker r
    let s := (s.onWorld (·.record (.draining (s.tracker k).running))).close k
    if (s.tracker k).isClosedAndEmpty then s.drained t op k andThen
    else (s.onWorld (·.park (.tracker k) op)).setJob t (.draining k andThen)
  | .draining k andThen =>
    if !s.world.isParked (.tracker k) op || (s.tracker k).isClosedAndEmpty then s.drained t op k andThen else s
  | .ended _ => s

/-- Polls a task. If it was woken meanwhile it is ready again afterwards. -/
def pollTask (turns : Nat) (s : System) (t : TaskId) : System :=
  match s.tasks[t]? with
  | none => s
  | some task =>
    let s := s.onWorld fun w => { w with current := some t, wokenMeanwhile := false }
    let s := s.pollJob turns t task.op task.job
    let again := s.world.wokenMeanwhile && (s.ending? t).isNone
    let s := s.onWorld fun w => { w with current := none, wokenMeanwhile := false }
    if again then s.onWorld (·.wake t) else s

/-- Polls ready tasks until none is ready, up to `n` of them. -/
def settle (turns : Nat) : Nat → System → System
  | 0, s => s
  | n + 1, s =>
    match s.world.ready with
    | [] => s
    | t :: rest => settle turns n (pollTask turns (s.onWorld fun w => { w with ready := rest }) t)

/-- Moves the clock from deadline to deadline up to a target, settling at each of them. -/
def advanceWhileDue (turns polls : Nat) : Nat → Nat → System → System
  | 0, _, s => s
  | n + 1, target, s =>
    match s.world.nextDeadline with
    | some d =>
      if d ≤ target then
        advanceWhileDue turns polls n target (settle turns polls (s.onWorld (·.advanceTo d)))
      else s
    | none => s

/-- Lets time pass: everything that is due happens in its order, and at the end the clock shows the target. -/
def advance (turns polls : Nat) (ms : Nat) (s : System) : System :=
  let target := s.world.now + ms
  (advanceWhileDue turns polls polls target s).onWorld (·.advanceTo target)

/-- Lets a task come to its end: whenever nothing is ready, the clock moves to the next deadline. There is no ending if nothing
can happen any more before the task ends. -/
def await (turns polls : Nat) (t : TaskId) : Nat → System → Option Ending × System
  | 0, s => (none, s)
  | n + 1, s =>
    let s := settle turns polls s
    match s.ending? t with
    | some e => (some e, s)
    | none =>
      match s.world.nextDeadline with
      | some d => await turns polls t n (s.onWorld (·.advanceTo d))
      | none => (none, s)

/-- Stops all tasks where they are. -/
def shutDown (s : System) : System :=
  let drop (s : System) (t : TaskId) : System := if (s.ending? t).isSome then s else s.finish t .dropped
  ((List.range s.tasks.size).foldl drop s).onWorld fun w => { w with ready := [] }

end System

end Interruptible
