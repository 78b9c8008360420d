import Interruptible.Script.Run

/-!
# Scenarios

A script of steps in one world: runs are started, watched, cancelled and drained while time passes as the steps say. A step
lets tasks go on only if it says so.
-/

namespace Interruptible.Script

/-- A step of a scenario. -/
inductive ScenarioStep where
  | runtime (interval : Option Nat)
  | settle
  | advance (ms : Nat)
  | eval (e : Expr)
  /-- Start a run in an environment, or in the default one, under a named token or a new one. -/
  | execute (run : String) (effect : Program) (env : EnvExpr) (token : Option String)
  | executeWithCancel (run cancel : String) (effect : Program) (env : EnvExpr)
  | executeOrThrow (run : String) (effect : Program) (env : EnvExpr) (token : Option String)
  | fork (cancel : String) (effect : Program) (env : EnvExpr)
  | forkWith (cancel : String) (effect : Program) (env : EnvExpr) (var : String) (onExit : Expr)
  | join (run : String)
  | dropRun (run : String)
  | runIds (a b : String)
  | inFlight
  | reset
  | drain (label : Value)
  | token (name : String)
  | tokenClone (name other : String)
  | tokenDrop (name : String)
  | tokenDebug (name : String)
  | cancelDebug (name : String)
  | cancelClone (name other : String)
  | waitToken (name : String) (label : Value)
  | track (label : Value) (steps : List Step)
  | hold (name : String) (label : Value) (steps : List Step)
  | spawnHeld (name : String)
  | dropHeld (name : String)
  | trackedInFlight
  | resetTracked
  | drainTracked (label : Value)
deriving Inhabited

/-- A future that a registry counts and that has not been spawned. -/
structure Held where
  op : OperationId
  future : Future
  tracker : TrackerId

/-- Where a scenario stands. -/
structure Scenario where
  system : System
  runtime : Runtime
  registry : RegistryId
  fns : Table Function
  runs : Table TaskId := .empty
  held : Table Held := .empty
deriving Inhabited

/-- What a step tells: its result, what was logged, and what was recorded. -/
structure StepReport where
  result : Value
  log : List Value
  records : List Record

/-- The text of the identity of a run, in the shape of a version 4 identifier. -/
def runIdText (t : TaskId) : String :=
  let digits := String.ofList (Nat.toDigits 16 t)
  "00000000-0000-4000-8000-" ++ "".pushn '0' (12 - digits.length) ++ digits

/-- The debug text of a token. -/
def debugToken (interrupted : Bool) : String :=
  "InterruptToken \x7b interrupted: " ++ toString interrupted ++ " \x7d"

/-- The debug text of a cancel handle. -/
def debugCancel (interrupted : Bool) : String := "CancelHandle \x7b token: " ++ debugToken interrupted ++ " \x7d"

/-- Two run identities compared: the lengths of their parts, their version, and whether they differ. -/
def compareRunIds (a b : TaskId) : Value :=
  let text := runIdText a
  .object
    [("shape", .arr ((text.splitOn "-").map fun part => .int part.length)),
     ("version", .str (String.ofList ((text.toList.drop 14).take 1))),
     ("differ", .bool (text != runIdText b))]

namespace Scenario

/-- A scenario before its first step. -/
def start (fns : Table Function) (interval : Nat) : Scenario :=
  let (runtimeRegistry, s) := ({} : System).newRegistry
  let (registry, s) := s.newRegistry
  { system := s, runtime := { interval := max interval 1, registry := runtimeRegistry }, registry, fns }

/-- Changes the system. -/
def onSystem (c : Scenario) (f : System → System) : Scenario := { c with system := f c.system }

/-- Does something in the system that has a result. -/
def inSystem {α : Type} (c : Scenario) (f : System → α × System) : α × Scenario :=
  let s := c.system
  let c := { c with system := {} }
  let (a, s) := f s
  (a, { c with system := s })

/-- The number of runs in flight. -/
def inFlightValue (c : Scenario) : Value := .int (c.system.inFlight c.runtime.registry)

/-- The number of futures that the separate registry counts. -/
def trackedValue (c : Scenario) : Value := .int (c.system.inFlight c.registry)

/-- The token of a name. -/
def token? (c : Scenario) (name : String) : Option TokenId := c.system.world.names.tokens.find? name

/-- Names a token. -/
def nameToken (c : Scenario) (name : String) (t : TokenId) : Scenario :=
  c.onSystem (·.onWorld fun w => { w with names := { w.names with tokens := w.names.tokens.set name t } })

/-- Names a cancel handle. -/
def nameCancel (c : Scenario) (name : String) (t : TokenId) : Scenario :=
  c.onSystem (·.onWorld fun w => { w with names := { w.names with cancels := w.names.cancels.set name t } })

/-- Builds an effect and evaluates the environment for it. -/
def prepare (c : Scenario) (effect : Program) (env : EnvExpr) : Node × Environment × Scenario :=
  let (n, c) := c.inSystem (buildIn c.fns effect)
  let (e, c) := c.inSystem (evalEnv env)
  (n, e, c)

/-- What a task that was joined has to tell. -/
def joinValue : Option Ending → Value
  | some (.exit e) => .object [("exit", e.toValue), ("describe", .str e.describe)]
  | some (.reported (.ok p)) => .tagged "ok" p.toValue
  | some (.reported (.error s)) => .tagged "thrown" s.toValue
  | some .dropped => .object [("exit", Exit.toValue .interrupted), ("describe", .str "interrupted")]
  | _ => .str "pending"

/-- A future that takes steps and then logs a label. -/
def labelled (op : OperationId) (steps : List Step) (label : Value) : Future :=
  Step.futures op [] (.ask (.log label) fun _ => .settle (.ok .unit)) steps

/-- Makes a future that the separate registry counts. -/
def hold (c : Scenario) (label : Value) (steps : List Step) : Held × Scenario :=
  let (op, c) := c.inSystem (·.inWorld World.newOperation)
  let (tracker, c) := c.inSystem (·.track c.registry)
  ({ op, future := labelled op steps label, tracker }, c)

/-- Spawns a future that is counted already. -/
def spawnCounted (c : Scenario) (h : Held) : Scenario :=
  c.onSystem fun s => (s.spawn (.future h.future) (some h.tracker)).2

/-- Takes one step: its result, and where the scenario stands after it. -/
def take (c : Scenario) : ScenarioStep → Value × Scenario
  | .runtime interval =>
    let (registry, c) := c.inSystem System.newRegistry
    let n := interval.getD 10000
    (.int n, { c with runtime := { interval := max n 1, registry } })
  | .settle => (.null, c.onSystem settled)
  | .advance ms =>
    let c := c.onSystem (System.advance ample ample ms)
    (.int c.system.world.now, c)
  | .eval e =>
    let (r, c) := c.inSystem (·.inWorld (e.eval []).run)
    match r with
    | .ok v => (v, c)
    | .error p => (.tagged "panicked" (.str (match p with
      | .text m => m
      | .nonText => "non-string panic payload")), c)
  | .execute run effect env token =>
    let (n, e, c) := c.prepare effect env
    let (t, c) := c.inSystem (·.execute c.runtime n e (token.bind c.token?))
    (c.inFlightValue, { c with runs := c.runs.set run t })
  | .executeWithCancel run cancel effect env =>
    let (n, e, c) := c.prepare effect env
    let ((t, token), c) := c.inSystem fun s =>
      let (t, token, s) := s.executeWithCancel c.runtime n e
      ((t, token), s)
    (c.inFlightValue, { c with runs := c.runs.set run t }.nameCancel cancel token)
  | .executeOrThrow run effect env token =>
    let (n, e, c) := c.prepare effect env
    let (t, c) := c.inSystem (·.spawn (.call c.runtime n e (token.bind c.token?)))
    (c.inFlightValue, { c with runs := c.runs.set run t })
  | .fork cancel effect env =>
    let (n, e, c) := c.prepare effect env
    let (token, c) := c.inSystem fun s => (s.executeWithCancel c.runtime n e).2
    let c := c.nameCancel cancel token
    (c.inFlightValue, c)
  | .forkWith cancel effect env var onExit =>
    let (n, e, c) := c.prepare effect env
    let callback (x : Exit Value Payload) : Action Unit := do
      let _ ← onExit.eval [(var, x.toValue)]
      return ()
    let (token, c) := c.inSystem (·.forkWith c.runtime n e callback)
    let c := c.nameCancel cancel token
    (c.inFlightValue, c)
  | .join run => (joinValue ((c.runs.find? run).bind c.system.ending?), c)
  | .dropRun run => (.null, { c with runs := c.runs.erase run })
  | .runIds a b =>
    match c.runs.find? a, c.runs.find? b with
    | some a, some b => (compareRunIds a b, c)
    | _, _ => (.null, c)
  | .inFlight => (c.inFlightValue, c)
  | .reset => (.null, c.onSystem (·.reset c.runtime.registry))
  | .drain label =>
    (.null, c.onSystem fun s => (s.spawn (.drain c.runtime.registry (Action.perform (.log label)))).2)
  | .token name =>
    let (t, c) := c.inSystem (·.inWorld World.newToken)
    (.null, c.nameToken name t)
  | .tokenClone name other =>
    match c.token? name with
    | some t => (.null, c.nameToken other t)
    | none => (.null, c)
  | .tokenDrop name =>
    (.null, c.onSystem (·.onWorld fun w => { w with names := { w.names with tokens := w.names.tokens.erase name } }))
  | .tokenDebug name =>
    match c.token? name with
    | some t => (.str (debugToken (c.system.world.isInterrupted t)), c)
    | none => (.null, c)
  | .cancelDebug name =>
    match c.system.world.names.cancels.find? name with
    | some t => (.str (debugCancel (c.system.world.isInterrupted t)), c)
    | none => (.null, c)
  | .cancelClone name other =>
    match c.system.world.names.cancels.find? name with
    | some t => (.null, c.nameCancel other t)
    | none => (.null, c)
  | .waitToken name label =>
    match c.token? name with
    | some t =>
      let future : Future := .wait (.token t) (.ask (.log label) fun _ => .settle (.ok .unit))
      (.null, c.onSystem fun s => (s.spawn (.future future)).2)
    | none => (.null, c)
  | .track label steps =>
    let (h, c) := c.hold label steps
    let c := c.spawnCounted h
    (c.trackedValue, c)
  | .hold name label steps =>
    let (h, c) := c.hold label steps
    (c.trackedValue, { c with held := c.held.set name h })
  | .spawnHeld name =>
    match c.held.find? name with
    | some h =>
      let c := { c with held := c.held.erase name }.spawnCounted h
      (c.trackedValue, c)
    | none => (c.trackedValue, c)
  | .dropHeld name =>
    match c.held.find? name with
    | some h =>
      let c := { c with held := c.held.erase name }.onSystem (·.untrack h.tracker)
      (c.trackedValue, c)
    | none => (c.trackedValue, c)
  | .trackedInFlight => (c.trackedValue, c)
  | .resetTracked =>
    let c := c.onSystem (·.reset c.registry)
    (c.trackedValue, c)
  | .drainTracked label =>
    (.null, c.onSystem fun s => (s.spawn (.drain c.registry (Action.perform (.log label)))).2)

/-- Takes one step and reports what happened during it. -/
def report (c : Scenario) (step : ScenarioStep) : StepReport × Scenario :=
  let logged := c.system.world.log.size
  let recorded := c.system.world.records.size
  let (result, c) := c.take step
  ({ result
     log := (c.system.world.log.toList).drop logged
     records := (c.system.world.records.toList).drop recorded }, c)

/-- Takes all steps: the reports, and the counters at the end. -/
def perform (c : Scenario) (steps : List ScenarioStep) : List StepReport × List (String × Int) :=
  let (reports, c) := steps.foldl
    (fun (acc : List StepReport × Scenario) step =>
      let (r, c) := acc.2.report step
      (r :: acc.1, c))
    ([], c)
  (reports.reverse, c.system.world.counters.entries)

end Scenario

end Interruptible.Script
