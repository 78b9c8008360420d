import Interruptible.Effect.Combinators

/-!
# Brackets

Acquire, use, release. The resource lies in a cell from the moment it is used until it is released, and whoever takes it out
of the cell releases it: the continuation of the use, or, if interruption keeps that from running, a finalizer. A release is
an effect that is told how the use ended.
-/

namespace Interruptible

namespace Node

/-- How a bracket ends once its resource has been released: a failing release takes the place of a success and is appended
to a failure. -/
def afterRelease (used released : Exit Value Payload) : Node :=
  match used, released with
  | used, .success _ => done used
  | .failure c, .failure r => .fail (c.andThen r)
  | .success _, .failure r => .fail r

/-- Goes on with an exit that `result` has captured. -/
def onExit (f : Exit Value Payload → Action Node) : Payload → Action Node
  | .exit e => f e
  | p => f (.success p)

/-- A release as an effect without a result. -/
def releasing (release : Payload → Exit Value Payload → Action Node) (resource : Payload)
    (used : Exit Value Payload) : Action Node := do
  return (← release resource used).asUnit

/-- What comes after the use: the resource is taken from its cell and released. -/
def releaseAfterUse (cell : CellId) (release : Payload → Exit Value Payload → Action Node)
    (used : Exit Value Payload) : Action Node := do
  match ← Action.perform (.take cell) with
  | none => return done used
  | some resource =>
    let released ← releasing release resource used
    return released.result.chain (onExit fun r => return afterRelease used r)

/-- What an interrupted bracket does: it releases the resource if it is still in its cell. -/
def releaseOnInterrupt (cell : CellId) (release : Payload → Exit Value Payload → Action Node) : Node :=
  .defer do
    match ← Action.perform (.take cell) with
    | some resource => releasing release resource .interrupted
    | none => return .unit

/-- The use of a resource, which lies in its cell from here on. -/
def useResource (cell : CellId) (use : Payload → Action Node) (resource : Payload) : Node :=
  .defer do
    Action.perform (.fill cell resource)
    use resource

/-- Acquires a resource, uses it, and releases it, telling the release how the use ended. -/
def bracketExit (acquire : Node) (use : Payload → Action Node)
    (release : Payload → Exit Value Payload → Action Node) : Action Node := do
  let cell ← Action.perform .newCell
  let body := acquire.chain fun resource =>
    return (useResource cell use resource).result.chain (onExit (releaseAfterUse cell release))
  return body.ensuring (releaseOnInterrupt cell release)

/-- Acquires a resource, uses it, and releases it. -/
def bracket (acquire : Node) (use release : Payload → Action Node) : Action Node :=
  bracketExit acquire use fun resource _ => release resource

end Node

end Interruptible
