import Interruptible.Context

/-!
# Commands, listeners and actions

What a callback does to the world around it, as data. An action is a finite tree: it ends with a result or with a panic, or
it asks the world for something and goes on with the answer. `Command` lists what can be asked without handing code over;
a listener is an action that waits for an interrupt token to trip, and registering one hands code over. Since actions are
finite trees, running one always ends, and a callback can be inspected as well as run.
-/

namespace Interruptible

/-- The identity of an interrupt token. -/
abbrev TokenId := Nat

/-- The identity of a host operation: one future that is being awaited, with the hooks registered for it. -/
abbrev OperationId := Nat

/-- The identity of a cell that holds at most one resource. -/
abbrev CellId := Nat

/-- The right to remove one listener from one token. -/
structure Subscription where
  token : TokenId
  key : Nat
deriving Inhabited, Repr, DecidableEq

/-- What a callback can ask of the world, apart from handing it a listener. -/
inductive Command where
  /-- Append a value to the log. -/
  | log (v : Value)
  /-- Increment a counter. -/
  | bump (counter : String)
  /-- Read a counter. -/
  | counter (counter : String)
  /-- Read the clock. -/
  | now
  /-- Open a gate for good. -/
  | openGate (gate : String)
  /-- Trip a token. -/
  | interrupt (t : TokenId)
  /-- Ask whether a token has been tripped. -/
  | isInterrupted (t : TokenId)
  /-- Let a token trip another one when it trips itself. -/
  | link (parent child : TokenId)
  /-- Remove a listener that code has registered. -/
  | unsubscribe (s : Subscription)
  /-- Ask whether the hooks of an operation have been fired. -/
  | isFired (op : OperationId)
  /-- Make an empty cell. -/
  | newCell
  /-- Put a resource into a cell. -/
  | fill (cell : CellId) (resource : Payload)
  /-- Take the resource out of a cell. -/
  | take (cell : CellId)
  /-- The token of a name. -/
  | findToken (name : String)
  /-- The token behind the cancel handle of a name. -/
  | findCancel (name : String)
  /-- The operation whose hooks were kept under a name. -/
  | findHooks (name : String)
  /-- Keep the hooks of an operation under a name. -/
  | keepHooks (name : String) (op : OperationId)
  /-- Keep a subscription under a name; the one that was there comes back. -/
  | keepSubscription (name : String) (s : Subscription)
  /-- Take a subscription from its name. -/
  | takeSubscription (name : String)
deriving Inhabited

/-- The type of the answer to a command. -/
@[reducible]
def Command.Reply : Command → Type
  | .log _ | .openGate _ | .interrupt _ | .unsubscribe _ | .fill _ _ | .keepHooks _ _ => Unit
  | .bump _ | .counter _ => Int
  | .now => Nat
  | .isInterrupted _ | .isFired _ => Bool
  | .link _ _ | .keepSubscription _ _ | .takeSubscription _ => Option Subscription
  | .newCell => CellId
  | .take _ => Option Payload
  | .findToken _ | .findCancel _ => Option TokenId
  | .findHooks _ => Option OperationId

/-- Code that waits for a token to trip: a finite tree of commands, and of listeners that it registers in turn. -/
inductive Listener where
  | done
  | panic (p : Panic)
  | ask (c : Command) (next : c.Reply → Listener)
  /-- Register a listener on a token; the answer is the subscription, or none if the listener ran at once. -/
  | subscribe (t : TokenId) (l : Listener) (next : Option Subscription → Listener)
  /-- Register a listener as a hook of an operation. -/
  | register (op : OperationId) (l : Listener) (next : Listener)

/-- The listener that trips a token. -/
def Listener.interrupting (t : TokenId) : Listener := .ask (.interrupt t) fun _ => .done

/-- A computation that a callback performs: a finite tree of requests that ends with a result or a panic. -/
inductive Action (α : Type) where
  | pure (a : α)
  | panic (p : Panic)
  | ask (c : Command) (next : c.Reply → Action α)
  | subscribe (t : TokenId) (l : Listener) (next : Option Subscription → Action α)
  | register (op : OperationId) (l : Listener) (next : Action α)

namespace Action

variable {α β : Type}

/-- One action after another. -/
def bind : Action α → (α → Action β) → Action β
  | .pure a, f => f a
  | .panic p, _ => .panic p
  | .ask c next, f => .ask c fun r => (next r).bind f
  | .subscribe t l next, f => .subscribe t l fun r => (next r).bind f
  | .register op l next, f => .register op l (next.bind f)

instance : Monad Action where
  pure := Action.pure
  bind := Action.bind

/-- A single command. -/
def perform (c : Command) : Action c.Reply := .ask c .pure

/-- An action as a listener: its result is dropped. -/
def listener : Action α → Listener
  | .pure _ => .done
  | .panic p => .panic p
  | .ask c next => .ask c fun r => (next r).listener
  | .subscribe t l next => .subscribe t l fun r => (next r).listener
  | .register op l next => .register op l next.listener

/-- A panic with a message. -/
def panicWith (m : String) : Action α := .panic (.text m)

/-- Repeats a step on a state, `n` times. -/
def iterate (step : Nat → α → Action α) : Nat → Nat → α → Action α
  | 0, _, a => .pure a
  | n + 1, k, a =>
    match step k a with
    | .pure a' => iterate step n (k + 1) a'
    | other => other.bind (iterate step n (k + 1))

end Action

end Interruptible
