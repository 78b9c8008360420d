import Interruptible.Script.Program
import Interruptible.Task.Schedule

/-!
# Single runs

A script that runs one effect in a fresh world: the effect is built, started, and driven until it settles or nothing can
happen any more. Time passes from one deadline to the next, and a run can be told to be interrupted at a given time.
-/

namespace Interruptible.Script

/-- A bound on steps that no script comes near: what ends at all ends before it. -/
def ample : Nat := 1000000000000000000

/-- Settles with ample bounds. -/
def settled (s : System) : System := s.settle ample ample

/-- A system with one registry and a token of the name `self`. -/
def freshSystem : TokenId × RegistryId × System :=
  let (r, s) := ({} : System).newRegistry
  let (t, s) := s.inWorld World.newToken
  (t, r, s.onWorld fun w => { w with names := { w.names with tokens := w.names.tokens.set "self" t } })

/-- Builds an effect in the world of a system; a panic while building is a defect. -/
def buildIn (fns : Table Function) (effect : Program) (s : System) : Node × System :=
  s.inWorld (guarded (effect.build fns ample []))

/-- Evaluates an environment in the world of a system. -/
def evalEnv (env : EnvExpr) (s : System) : Environment × System :=
  match s.inWorld (env.eval []).run with
  | (.ok e, s) => (e, s)
  | (.error _, s) => (.plain .null, s)

/-- How a run is started. -/
structure RunRequest where
  effect : Program
  env : EnvExpr := .plain (.lit .null)
  fns : Table Function := .empty
  interval : Nat
  interruptFirst : Bool := false
  cancelAt : Option Nat := none
  /-- Whether the result is asked for by a call that boils failures down. -/
  throws : Bool := false

/-- How a run ended, or that nothing can happen any more. -/
inductive RunEnd where
  | ended (e : Ending)
  | stuck

/-- What can be told after a run. -/
structure RunReport where
  ending : RunEnd
  log : List Value
  now : Nat
  counters : List (String × Int)
  interrupted : Bool
  inFlight : Nat
  records : List Record

/-- Drives a task: whenever nothing is ready, either its token is tripped because its time has come, or the clock moves to the
next deadline. -/
def drive (task : TaskId) (self : TokenId) : Nat → Option Nat → System → RunEnd × System
  | 0, _, s => (.stuck, s)
  | n + 1, cancelAt, s =>
    let s := settled s
    match s.ending? task with
    | some e => (.ended e, s)
    | none =>
      match cancelAt, s.world.nextDeadline with
      | some c, some d =>
        if c ≤ d then
          drive task self n none (s.onWorld fun w => { w with now := max w.now c }.interrupt self)
        else drive task self n cancelAt (s.onWorld (·.advanceTo d))
      | some c, none => drive task self n none (s.onWorld fun w => { w with now := max w.now c }.interrupt self)
      | none, some d => drive task self n none (s.onWorld (·.advanceTo d))
      | none, none => (.stuck, s)

/-- Runs an effect and reports. -/
def RunRequest.perform (r : RunRequest) : RunReport :=
  let (self, registry, s) := freshSystem
  let s := if r.interruptFirst then s.onWorld (World.interrupt self) else s
  let (n, s) := buildIn r.fns r.effect s
  let runtime : Runtime := { interval := max r.interval 1, registry }
  let (task, s) :=
    if r.throws then s.spawn (.call runtime n (.plain .null) (some self))
    else
      let (env, s) := evalEnv r.env s
      s.execute runtime n env (some self)
  let (ending, s) := drive task self ample r.cancelAt s
  { ending
    log := s.world.log.toList
    now := s.world.now
    counters := s.world.counters.entries
    interrupted := s.world.isInterrupted self
    inFlight := s.inFlight registry
    records := s.world.records.toList }

/-- Starts a run, lets it go on if asked, and shuts the scheduler down. -/
def runAborted (effect : Program) (fns : Table Function) (interval : Nat) (settles : Bool) : RunReport :=
  let (self, registry, s) := freshSystem
  let (n, s) := buildIn fns effect s
  let (task, s) := s.execute { interval := max interval 1, registry } n (.plain .null) (some self)
  let s := if settles then settled s else s
  let s := s.shutDown
  { ending := match s.ending? task with
      | some e => .ended e
      | none => .stuck
    log := s.world.log.toList
    now := s.world.now
    counters := s.world.counters.entries
    interrupted := s.world.isInterrupted self
    inFlight := s.inFlight registry
    records := s.world.records.toList }

/-- The exit of a run; one that the scheduler dropped counts as interrupted. -/
def RunReport.exit? (r : RunReport) : Option (Exit Value Payload) :=
  match r.ending with
  | .ended e => e.runExit
  | .stuck => none

end Interruptible.Script
