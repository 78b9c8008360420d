import Interruptible.Machine.Turn

/-!
# Systems

A system is a world together with its tasks. A task is a top-level run, or something that waits for one: a call that reports
a run's result, a callback for its exit, a future of the host, a drain. Trackers count the tasks that they were told to
track; a registry names the tracker that counts at present.
-/

namespace Interruptible

/-- The identity of a registry. -/
abbrev RegistryId := Nat

/-- A count of tracked tasks. While it is closed, its becoming empty is announced. -/
structure Tracker where
  running : Nat := 0
  closed : Bool := false
deriving Inhabited, Repr, DecidableEq

/-- Whether those who wait for a tracker may go on. -/
def Tracker.isClosedAndEmpty (t : Tracker) : Bool := t.closed && t.running == 0

/-- What runs are started with: how many nodes an interpreter takes between two yields, and the registry of the runs. -/
structure Runtime where
  interval : Nat
  registry : RegistryId
deriving Inhabited, Repr, DecidableEq

/-- How a task ended. -/
inductive Ending where
  /-- A run settled. -/
  | exit (e : Exit Value Payload)
  /-- A call reported the value of its run, or the cause boiled down. -/
  | reported (r : Except (Squashed Value) Payload)
  | finished
  | panicked
  /-- The scheduler was shut down. -/
  | dropped
deriving Inhabited

/-- The exit of a run that has ended; one that the scheduler dropped counts as interrupted. -/
def Ending.runExit : Ending → Option (Exit Value Payload)
  | .exit e => some e
  | .dropped => some .interrupted
  | _ => none

/-- What a task is there for. -/
inductive Job where
  /-- A run that has not been polled yet. -/
  | launched (p : Process)
  | running (p : Process)
  /-- A call that will start a run and report its result. -/
  | call (runtime : Runtime) (n : Node) (env : Environment) (token : Option TokenId)
  /-- A call whose run is on its way. -/
  | reporting (run : TaskId)
  /-- A callback for the exit of a run. -/
  | notify (run : TaskId) (onExit : Exit Value Payload → Action Unit)
  | future (f : Future)
  /-- A drain that has not been polled yet, and what to do after it. -/
  | drain (registry : RegistryId) (andThen : Action Unit)
  | draining (tracker : TrackerId) (andThen : Action Unit)
  | ended (e : Ending)

/-- A task: its job, the operation under which it waits, and the tracker that counts it. -/
structure Task where
  job : Job
  op : OperationId
  tracker : Option TrackerId := none

/-- A world with its tasks, trackers and registries. -/
structure System where
  world : World := {}
  tasks : Array Task := #[]
  trackers : Array Tracker := #[]
  registries : Array TrackerId := #[]
deriving Inhabited

namespace System

/-- How a task ended, if it has. -/
def ending? (s : System) (t : TaskId) : Option Ending :=
  match s.tasks[t]? with
  | some { job := .ended e, .. } => some e
  | _ => none

/-- Changes the world. -/
def onWorld (s : System) (f : World → World) : System := { s with world := f s.world }

/-- Does something in the world that has a result. -/
def inWorld {α : Type} (s : System) (f : World → α × World) : α × System :=
  let w := s.world
  let s := { s with world := {} }
  let (a, w) := f w
  (a, { s with world := w })

/-- Gives a task another job. -/
def setJob (s : System) (t : TaskId) (j : Job) : System :=
  { s with tasks := s.tasks.modify t fun task => { task with job := j } }

/-- Adds a task, which is ready to be polled. -/
def spawn (s : System) (j : Job) (tracker : Option TrackerId := none) : TaskId × System :=
  let t := s.tasks.size
  let (op, s) := s.inWorld World.newOperation
  (t, { s with world := s.world.wake t, tasks := s.tasks.push { job := j, op, tracker } })

/-! ## Trackers and registries -/

/-- A tracker, or an empty one. -/
def tracker (s : System) (k : TrackerId) : Tracker := (s.trackers[k]?).getD {}

/-- Changes a tracker. -/
def modifyTracker (s : System) (k : TrackerId) (f : Tracker → Tracker) : System :=
  { s with trackers := s.trackers.modify k f }

/-- Makes a registry with a tracker of its own. -/
def newRegistry (s : System) : RegistryId × System :=
  (s.registries.size,
    { s with registries := s.registries.push s.trackers.size, trackers := s.trackers.push {} })

/-- The tracker that counts at present. -/
def currentTracker (s : System) (r : RegistryId) : TrackerId := (s.registries[r]?).getD 0

/-- How many tasks are tracked at present. -/
def inFlight (s : System) (r : RegistryId) : Nat := (s.tracker (s.currentTracker r)).running

/-- Counts one task more. -/
def track (s : System) (r : RegistryId) : TrackerId × System :=
  let k := s.currentTracker r
  (k, s.modifyTracker k fun x => { x with running := x.running + 1 })

/-- Counts one task less; the last one of a closed tracker is announced. -/
def untrack (s : System) (k : TrackerId) : System :=
  let s := s.modifyTracker k fun x => { x with running := x.running - 1 }
  if (s.tracker k).isClosedAndEmpty then s.onWorld (·.emit (.tracker k)) else s

/-- Forgets the tasks tracked so far: an empty tracker takes over. -/
def reset (s : System) (r : RegistryId) : System :=
  let count := s.inFlight r
  { s with
    world := s.world.record (.forgotten count)
    registries := s.registries.modify r fun _ => s.trackers.size
    trackers := s.trackers.push {} }

/-- Closes a tracker; one that is empty at that moment is announced. -/
def close (s : System) (k : TrackerId) : System :=
  let before := s.tracker k
  let s := s.modifyTracker k fun x => { x with closed := true }
  if !before.closed && before.running == 0 then s.onWorld (·.emit (.tracker k)) else s

/-- Opens a tracker again. -/
def reopen (s : System) (k : TrackerId) : System := s.modifyTracker k fun x => { x with closed := false }

/-- Ends a task: it is no longer counted, and those who wait for it are woken. -/
def finish (s : System) (t : TaskId) (e : Ending) : System :=
  match s.tasks[t]? with
  | none => s
  | some task =>
    let s := s.onWorld (·.forget task.op)
    let s := match task.tracker with
      | some k => s.untrack k
      | none => s
    (s.setJob t (.ended e)).onWorld (·.emit (.task t))

/-! ## Starting runs -/

/-- Starts a run as a task that the runtime's registry tracks. -/
def launch (s : System) (r : Runtime) (n : Node) (env : Environment) (token : TokenId) : TaskId × System :=
  let (k, s) := s.track r.registry
  s.spawn (.launched (.start n env token r.interval)) (some k)

/-- Starts a run under a given token, or under a new one. -/
def execute (s : System) (r : Runtime) (n : Node) (env : Environment) (token : Option TokenId) : TaskId × System :=
  match token with
  | some t => s.launch r n env t
  | none =>
    let (t, s) := s.inWorld World.newToken
    s.launch r n env t

/-- Starts a run together with the token that cancels it. -/
def executeWithCancel (s : System) (r : Runtime) (n : Node) (env : Environment) : TaskId × TokenId × System :=
  let (token, s) := s.inWorld World.newToken
  let (t, s) := s.launch r n env token
  (t, token, s)

/-- Starts a run and a second tracked task that is told its exit. -/
def forkWith (s : System) (r : Runtime) (n : Node) (env : Environment)
    (onExit : Exit Value Payload → Action Unit) : TokenId × System :=
  let (run, token, s) := s.executeWithCancel r n env
  let (k, s) := s.track r.registry
  let (_, s) := s.spawn (.notify run onExit) (some k)
  (token, s)

end System

end Interruptible
