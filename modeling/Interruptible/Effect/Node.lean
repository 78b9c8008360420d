import Interruptible.Host.Future

/-!
# Nodes

An effect is a tree of nodes. The leaves succeed, fail, read the environment, await host work or give up the run; the inner
nodes say what happens next. A callback of a node is an action that builds the node to go on with.
-/

namespace Interruptible

/-- An effect, as the tree that the interpreter walks. -/
inductive Node where
  /-- Succeed with a payload. -/
  | succeed (p : Payload)
  /-- Succeed or fail with what a computation gives. -/
  | succeedLazy (thunk : Action (Except (Cause Value) Payload))
  /-- Fail with a cause. -/
  | fail (c : Cause Value)
  /-- Interrupt the run. -/
  | interrupt
  /-- Read the environment. -/
  | asks (read : Environment → Action Node)
  /-- Run an effect in another environment. -/
  | give (inner : Node) (env : Environment)
  /-- Run effects side by side and collect what they succeed with. -/
  | all (children : List Node)
  /-- Build the effect when it is its turn. -/
  | defer (factory : Action Node)
  /-- Await a host future; a rejection is turned into a cause. -/
  | liftPromise (factory : OperationId → Action Future) (onReject : Value → Action (Cause Value))
  /-- Go on with what an effect succeeds with. -/
  | chain (inner : Node) (apply : Payload → Action Node)
  /-- Go on with what an effect fails or succeeds with. -/
  | matchCause (inner : Node) (recover : Cause Value → Action Node) (apply : Payload → Action Node)
  /-- Run a finalizer after an effect, however it ends. -/
  | ensuring (inner finalizer : Node)

namespace Node

instance : Inhabited Node := ⟨.succeed .unit⟩

/-- The word for the kind of a node. -/
def kind : Node → String
  | .succeed _ => "succeed"
  | .succeedLazy _ => "succeed_lazy"
  | .fail _ => "fail"
  | .interrupt => "interrupt"
  | .asks _ => "asks"
  | .give _ _ => "give"
  | .all _ => "all"
  | .defer _ => "defer"
  | .liftPromise _ _ => "lift_promise"
  | .chain _ _ => "chain"
  | .matchCause _ _ _ => "match"
  | .ensuring _ _ => "ensuring"

/-- The effect that fails with a defect. -/
def die (d : Defect) : Node := .fail (.die d)

end Node

end Interruptible
