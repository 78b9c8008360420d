import Interruptible.Host.Command

/-!
# Host futures

A future is work outside of the effects: it acts, waits, and in the end settles with a value or a rejection. It is a finite
tree as well; beyond what an action does it can wait for the clock, give way to other tasks, wait for a gate or a token, or
never settle.
-/

namespace Interruptible

/-- The identity of a task. -/
abbrev TaskId := Nat

/-- The identity of a tracker, which counts running tasks. -/
abbrev TrackerId := Nat

/-- What a task can wait for besides the clock. -/
inductive Signal where
  | gate (name : String)
  | token (t : TokenId)
  | task (t : TaskId)
  | tracker (t : TrackerId)
deriving Inhabited, Repr, DecidableEq

/-- Work of the host that may wait. -/
inductive Future where
  /-- The end: a value, or a rejection. -/
  | settle (r : Except Value Payload)
  | panic (p : Panic)
  /-- Waits forever. -/
  | never
  | ask (c : Command) (next : c.Reply → Future)
  | subscribe (t : TokenId) (l : Listener) (next : Option Subscription → Future)
  | register (op : OperationId) (l : Listener) (next : Future)
  /-- Wait a number of milliseconds from the moment this is reached. -/
  | sleep (ms : Nat) (next : Future)
  /-- Wait until the clock shows a time. -/
  | sleepUntil (deadline : Nat) (next : Future)
  /-- Give way to the other tasks a number of times. -/
  | yield (times : Nat) (next : Future)
  /-- Wait for an open gate or a tripped token. -/
  | wait (s : Signal) (next : Future)

/-- Performs an action and goes on with its result. -/
def Action.thenFuture {α : Type} : Action α → (α → Future) → Future
  | .pure a, k => k a
  | .panic p, _ => .panic p
  | .ask c next, k => .ask c fun r => (next r).thenFuture k
  | .subscribe t l next, k => .subscribe t l fun r => (next r).thenFuture k
  | .register op l next, k => .register op l (next.thenFuture k)

end Interruptible
