import Interruptible.Effect.Node

/-!
# Combinators

Effects built from effects: sequencing, recovery, resources, concurrency, environments. All of them are made of the node
kinds; nothing here is known to the interpreter.
-/

namespace Interruptible

namespace Node

/-- Succeed with a value. -/
def value (v : Value) : Node := .succeed (.value v)

/-- Succeed with nothing to tell. -/
def unit : Node := .succeed .unit

/-- End with an exit that is known already. -/
def done : Exit Value Payload → Node
  | .success p => .succeed p
  | .failure c => .fail c

/-- Succeed with the result of a computation. -/
def lazy (thunk : Action Payload) : Node := .succeedLazy do return .ok (← thunk)

/-- Succeed or fail with the result of a computation, whose rejection is turned into a typed failure. -/
def tryCatch (thunk : Action (Except Value Payload)) (onError : Value → Action Value) : Node :=
  .succeedLazy do
    match ← thunk with
    | .ok p => return .ok p
    | .error x => return .error (.fail (← onError x))

/-! ## Sequencing -/

/-- Changes what an effect succeeds with. -/
def map (n : Node) (f : Payload → Action Payload) : Node := n.chain fun p => do return .succeed (← f p)

/-- Drops what an effect succeeds with. -/
def asUnit (n : Node) : Node := n.chain fun _ => return .unit

/-! ## Recovery -/

/-- Goes on with the leftmost typed failure; a cause without one fails on as it is. -/
def fold (n : Node) (onFailure : Value → Action Node) (onSuccess : Payload → Action Node) : Node :=
  n.matchCause
    (fun c =>
      match c.failureOr with
      | .ok e => onFailure e
      | .error rest => return .fail rest)
    onSuccess

/-- Recovers from typed failures. -/
def catchAll (n : Node) (f : Value → Action Node) : Node := n.fold f fun p => return .succeed p

/-- Recovers from all causes. -/
def catchAllCause (n : Node) (f : Cause Value → Action Node) : Node := n.matchCause f fun p => return .succeed p

/-- Changes every typed failure of the cause, from left to right. -/
def mapError (n : Node) (f : Value → Action Value) : Node :=
  n.matchCause (fun c => do return .fail (← c.mapM f)) fun p => return .succeed p

/-- Succeeds with the exit of an effect. -/
def result (n : Node) : Node :=
  n.matchCause (fun c => return .succeed (.exit (.failure c))) fun p => return .succeed (.exit (.success p))

/-- Succeeds with the value or the typed failure of an effect. -/
def either (n : Node) : Node :=
  n.fold (fun e => return .succeed (.result (.error e))) fun p => return .succeed (.result (.ok p))

/-! ## Concurrency -/

/-- Runs effects side by side and collects what they succeed with, in their order. -/
def collect (children : List Node) : Node := (Node.all children).chain fun p => return .succeed p

/-- Runs an effect for every item, side by side; the effects are built when it is their turn. -/
def forEachPar {α : Type} (items : List α) (f : α → Action Node) : Node :=
  .defer do return collect (← items.mapM f)

/-! ## Environments -/

/-- Succeeds with the environment. -/
def environment : Node := .asks fun env => return .succeed (.environment env)

/-- The defect of a service that no context provides. -/
def missingService (type : String) : Defect := .msg ("service " ++ type ++ " is not provided")

/-- Looks up a service by its type and goes on with it. -/
def serviceWith (type : String) (f : Value → Action Node) : Node :=
  .asks fun
    | .services c =>
      match c.get? type with
      | some s => f s
      | none => return .die (missingService type)
    | .plain _ => return .die (missingService type)

/-- Looks up a service by its type. -/
def service (type : String) : Node := serviceWith type fun s => return .value s

/-- Runs an effect with more services; these hide services of the same type. -/
def provideContext (n : Node) (added : Context) : Node :=
  .asks fun
    | .services current => return .give n (.services (current.merge added))
    | .plain _ => return .give n (.services added)

/-- Runs an effect with one more service. -/
def provideService (n : Node) (type : String) (service : Value) : Node :=
  n.provideContext (Context.empty.insert type service)

/-! ## Host futures -/

/-- Awaits a future; what it rejects with is a typed failure. -/
def promise (factory : OperationId → Action Future) : Node := .liftPromise factory fun x => return .fail x

/-- Awaits a future that needs no hooks. -/
def fromFuture (f : Future) : Node := promise fun _ => return f

end Node

end Interruptible
