import Interruptible.Script.Program

/-!
# Contexts step by step

A script that builds, merges, copies and looks into named contexts. A context that is mentioned for the first time is empty.
-/

namespace Interruptible.Script

/-- What a step does with the context it is about. -/
inductive ContextStep where
  | new
  | insert (type : String) (service : Value)
  | get (type : String)
  | contains (type : String)
  | merge (other : String)
  | clone (target : String)
  | debug
deriving Inhabited

/-- What a step tells: its result, and the context it was about after it. -/
structure ContextReport where
  result : Value
  context : Context
deriving Inhabited

/-- Takes a step on a named context. -/
def ContextStep.take (named : Table Context) (on : String) (step : ContextStep) : ContextReport × Table Context :=
  let c := (named.find? on).getD .empty
  let changed (d : Context) : ContextReport × Table Context := ({ result := .null, context := d }, named.set on d)
  let told (v : Value) : ContextReport × Table Context := ({ result := v, context := c }, named.set on c)
  match step with
  | .new => changed .empty
  | .insert type service => changed (c.insert type service)
  | .get type => told (.arr (c.get? type).toList)
  | .contains type => told (.bool (c.contains type))
  | .merge other => changed (c.merge ((named.find? other).getD .empty))
  | .clone target => ({ result := .null, context := c }, (named.set on c).set target c)
  | .debug => told (.str c.debug)

/-- Takes all steps, each on the context of a name. -/
def contextReports (steps : List (String × ContextStep)) : List ContextReport :=
  let (_, reports) := steps.foldl
    (fun (acc : Table Context × List ContextReport) step =>
      let (report, named) := step.2.take acc.1 step.1
      (named, report :: acc.2))
    (.empty, [])
  reports.reverse

end Interruptible.Script
