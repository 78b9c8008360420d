import Interruptible.CauseFormat
import Interruptible.Effect.Combinators
import Interruptible.Task.Schedule

/-!
# The benchmark

Times two kinds of work: a long chain of maps over one value, and groups of branches that all wait for the same time side by
side. Each part checks its own result: the chain must count its steps, and a group must give the numbers of its branches in
order. Times are those of the world's clock.
-/

namespace Interruptible.Benchmark

/-- What is to be timed. -/
structure Params where
  /-- The length of the chain. -/
  steps : Nat := 100000
  /-- How many branches a group has. -/
  branches : Nat := 100
  /-- How long each branch waits, in milliseconds. -/
  latency : Nat := 10
  /-- How many groups are timed. -/
  rounds : Nat := 10
deriving Inhabited, Repr, DecidableEq

/-- Why there is no report. -/
inductive Error where
  | nothingToTime
  | noRounds
  | chainFailed (s : Squashed Value)
  /-- The chain gave something else than the number of its steps. -/
  | wrongTotal (found : Value) (steps : Nat)
  | groupFailed (s : Squashed Value)
  /-- A group gave something else than the numbers of its branches in order. -/
  | wrongOrder
  /-- A run did not settle within the bounds. -/
  | unsettled
deriving Inhabited

/-- The wording of an error. -/
def Error.message : Error → String
  | .nothingToTime => "Must specify --steps or --branches (or both)"
  | .noRounds => "Must run at least 1 round"
  | .chainFailed s => "Chain run failed: " ++ s.display Value.text
  | .wrongTotal found steps => "Chain produced " ++ found.text ++ " instead of " ++ toString steps
  | .groupFailed s => "Group run failed: " ++ s.display Value.text
  | .wrongOrder => "Group results came back out of order"
  | .unsettled => "Run did not settle"

/-- There must be something to time, and a round to time it in. -/
def Params.validate (p : Params) : Except Error Unit :=
  if p.steps = 0 ∧ p.branches = 0 then throw .nothingToTime
  else if p.rounds = 0 then throw .noRounds
  else pure ()

/-! ## What is timed -/

/-- Adds one to a number. -/
def increment : Payload → Action Payload
  | .value (.int n) => return .value (.int (n + 1))
  | p => return p

/-- Maps over zero, one inside the other. -/
def chain (steps : Nat) : Node := steps.repeat (fun n => n.map increment) (.value (.int 0))

/-- A branch that waits and gives its number. -/
def sleeper (latency index : Nat) : Node :=
  .fromFuture (.sleep latency (.settle (.ok (.value (.int index)))))

/-- Branches that wait side by side. -/
def group (branches latency : Nat) : Node :=
  .forEachPar (List.range branches) fun index => return sleeper latency index

/-- What a group gives: the numbers of its branches in order. -/
def indices (branches : Nat) : List Payload := (List.range branches).map fun (index : Nat) => .value (.int index)

/-- Whether a payload is a list of given numbers. -/
def isList (p : Payload) (numbers : List Payload) : Bool := p.toValue == (Payload.list numbers).toValue

/-! ## Timing -/

/-- Bounds on the work: the turns of a poll, the polls between two deadlines, and the deadlines. -/
structure Bounds where
  turns : Nat
  polls : Nat
  deadlines : Nat
deriving Inhabited, Repr, DecidableEq

/-- Runs an effect to its end, and tells how long it took. -/
def time (b : Bounds) (r : Runtime) (n : Node) (s : System) : Option (Except (Squashed Value) Payload × Nat × System) :=
  let (t, started) := s.spawn (.call r n (.plain .null) none)
  match started.await b.turns b.polls t b.deadlines with
  | (some (.reported result), ended) => some (result, ended.world.now - s.world.now, ended)
  | _ => none

/-- Times the chain. -/
def timeChain (b : Bounds) (r : Runtime) (steps : Nat) (s : System) : Except Error (Nat × System) :=
  match time b r (chain steps) s with
  | none => throw .unsettled
  | some (.error e, _) => throw (.chainFailed e)
  | some (.ok p, elapsed, s) =>
    if p.toValue = .int steps then return (elapsed, s) else throw (.wrongTotal p.toValue steps)

/-- Times one group. -/
def timeGroup (b : Bounds) (r : Runtime) (p : Params) (s : System) : Except Error (Nat × System) :=
  match time b r (group p.branches p.latency) s with
  | none => throw .unsettled
  | some (.error e, _) => throw (.groupFailed e)
  | some (.ok found, elapsed, s) =>
    if isList found (indices p.branches) then return (elapsed, s) else throw .wrongOrder

/-- Times groups one after the other, and tells how long all of them took. -/
def timeGroups (b : Bounds) (r : Runtime) (p : Params) : Nat → Nat → System → Except Error (Nat × System)
  | 0, total, s => return (total, s)
  | rounds + 1, total, s => do
    let (elapsed, s) ← timeGroup b r p s
    timeGroups b r p rounds (total + elapsed) s

/-! ## Reports -/

/-- What was timed and how long it took, in milliseconds. -/
structure Report where
  startedAt : Nat
  finishedAt : Nat
  interval : Nat
  params : Params
  chainTime : Nat
  groupTime : Nat
deriving Inhabited, Repr, DecidableEq

/-- Times the chain and the groups. Nothing is run for parameters that are not valid. -/
def run (b : Bounds) (r : Runtime) (p : Params) (s : System) : Except Error (Report × System) := do
  p.validate
  let (chainTime, afterChain) ← timeChain b r p.steps s
  let (groupTime, ended) ← timeGroups b r p p.rounds 0 afterChain
  let report : Report :=
    { startedAt := s.world.now, finishedAt := ended.world.now, interval := r.interval, params := p, chainTime, groupTime }
  return (report, ended)

namespace Report

/-- The steps of the chain per second; a chain that took no time counts as one that took a millisecond. -/
def stepsPerSecond (r : Report) : Nat := r.params.steps * 1000 / max r.chainTime 1

/-- The average time of a group. -/
def groupAverage (r : Report) : Nat := r.groupTime / r.params.rounds

/-- What a group took beyond the time that its branches waited. -/
def groupOverhead (r : Report) : Nat := r.groupAverage - r.params.latency

/-- The fields of a report with their names. -/
def fields (r : Report) : List (String × Value) :=
  [("started_at", .int r.startedAt), ("finished_at", .int r.finishedAt), ("yield_interval", .int r.interval),
    ("steps", .int r.params.steps), ("chain_ms", .int r.chainTime), ("steps_per_sec", .int r.stepsPerSecond),
    ("branches", .int r.params.branches), ("latency_ms", .int r.params.latency), ("rounds", .int r.params.rounds),
    ("group_avg_ms", .int r.groupAverage), ("group_overhead_ms", .int r.groupOverhead)]

/-- The names of the fields that hold what was measured. -/
def measured : List String :=
  ["started_at", "finished_at", "chain_ms", "steps_per_sec", "group_avg_ms", "group_overhead_ms"]

/-- A report as an object, a field on each line. -/
def json (r : Report) : String :=
  "\x7b\n" ++ ",\n".intercalate (r.fields.map fun f => "  " ++ Value.quote f.1 ++ ": " ++ f.2.text) ++ "\n\x7d\n"

/-- A line across the page. -/
def rule : String := "".pushn '━' 40

/-- What is printed before the benchmark. -/
def heading : String := "🚀 Starting Eddy Benchmark\n" ++ rule ++ "\n"

/-- A report as text. -/
def display (r : Report) : String :=
  "\n".intercalate
    ["", "", rule, "📊 Benchmark Results", rule, "",
      "⚙️  Yield interval: " ++ toString r.interval, "",
      "🔗 Chain:",
      "   Steps: " ++ toString r.params.steps,
      "   Duration: " ++ toString r.chainTime ++ ".00ms",
      "   Throughput: " ++ toString r.stepsPerSecond ++ " steps/sec", "",
      "🌿 Concurrent group:",
      "   Branches: " ++ toString r.params.branches ++ " x " ++ toString r.params.latency ++ "ms latency",
      "   Rounds: " ++ toString r.params.rounds,
      "   Average: " ++ toString r.groupAverage ++ ".00ms",
      "   Overhead: " ++ toString r.groupOverhead ++ ".00ms", "",
      rule, ""]

end Report

end Interruptible.Benchmark
