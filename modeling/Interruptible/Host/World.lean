import Interruptible.Host.Future
import Interruptible.Host.Record

/-!
# The world

All state that callbacks and futures share: the log, counters, gates and clock; interrupt tokens with their listeners; host
operations with their hooks; cells; the names under which things are kept; who waits for what; and the queue of tasks that
are ready to be polled. A task that is woken joins the queue once; one that is woken while it is being polled joins it after
that poll.
-/

namespace Interruptible

/-- What happens when a token trips. Listeners are registered by code, the other reactions by the runtime. -/
inductive Reaction where
  /-- A listener runs. -/
  | call (l : Listener)
  /-- Another token trips. -/
  | forward (child : TokenId)
  /-- A host operation is stopped: its hooks fire. -/
  | stop (op : OperationId)

/-- Whether a reaction was registered by code. No code holds a subscription of the runtime's own reactions. -/
def Reaction.isListener : Reaction → Bool
  | .call _ => true
  | .forward _ | .stop _ => false

/-- An interrupt token: a latch, and what happens when it trips. -/
structure Token where
  interrupted : Bool := false
  nextKey : Nat := 0
  entries : List (Nat × Reaction) := []
deriving Inhabited

/-- A host operation: the hooks that wait for its interruption, whether they have fired, and the task that awaits it. -/
structure Operation where
  fired : Bool := false
  hooks : List Listener := []
  task : Option TaskId := none
deriving Inhabited

/-- A task that waits for a signal on behalf of an operation. -/
structure Waiter where
  signal : Signal
  op : OperationId
  task : TaskId
deriving Inhabited, Repr, DecidableEq

/-- A task that waits for the clock on behalf of an operation; earlier timers have smaller numbers. -/
structure Timer where
  deadline : Nat
  number : Nat
  op : OperationId
  task : TaskId
deriving Inhabited, Repr, DecidableEq

/-- The names under which tokens, cancel handles, hooks and subscriptions are kept. -/
structure Names where
  tokens : Table TokenId := .empty
  cancels : Table TokenId := .empty
  hooks : Table OperationId := .empty
  subscriptions : Table Subscription := .empty
deriving Inhabited

/-- The state that callbacks, futures and the runtime share. -/
structure World where
  log : Array Value := #[]
  counters : Table Int := .empty
  openGates : List String := []
  now : Nat := 0
  tokens : Array Token := #[]
  operations : Array Operation := #[]
  cells : Array (Option Payload) := #[]
  names : Names := {}
  waiters : List Waiter := []
  timers : List Timer := []
  nextTimer : Nat := 0
  ready : List TaskId := []
  current : Option TaskId := none
  wokenMeanwhile : Bool := false
  records : Array Record := #[]
deriving Inhabited

namespace World

/-- Adds a record. -/
def record (w : World) (r : Record) : World := { w with records := w.records.push r }

/-! ## Tasks that wait -/

/-- Makes a task ready. -/
def wake (w : World) (t : TaskId) : World :=
  if w.current = some t then { w with wokenMeanwhile := true }
  else if w.ready.contains t then w
  else { w with ready := w.ready ++ [t] }

/-- Makes the task that is being polled ready again. -/
def wakeCurrent (w : World) : World :=
  match w.current with
  | some t => w.wake t
  | none => w

/-- Lets the current task wait for a signal; a place in the line is kept. -/
def park (w : World) (s : Signal) (op : OperationId) : World :=
  match w.current with
  | none => w
  | some t =>
    if w.waiters.any (fun x => x.signal == s && x.op == op) then w
    else { w with waiters := w.waiters ++ [{ signal := s, op, task := t }] }

/-- Whether an operation still waits for a signal. -/
def isParked (w : World) (s : Signal) (op : OperationId) : Bool :=
  w.waiters.any (fun x => x.signal == s && x.op == op)

/-- Wakes all tasks that wait for a signal, in the order in which they started to wait. -/
def emit (w : World) (s : Signal) : World :=
  let called := w.waiters.filter (·.signal == s)
  let rest := w.waiters.filter (·.signal != s)
  called.foldl (fun w x => w.wake x.task) { w with waiters := rest }

/-- Lets the current task wait for the clock. -/
def startTimer (w : World) (deadline : Nat) (op : OperationId) : World :=
  match w.current with
  | none => w
  | some t =>
    { w with timers := w.timers ++ [{ deadline, number := w.nextTimer, op, task := t }], nextTimer := w.nextTimer + 1 }

/-- An operation that has ended, or is no longer awaited, waits for nothing. -/
def forget (w : World) (op : OperationId) : World :=
  { w with waiters := w.waiters.filter (·.op != op), timers := w.timers.filter (·.op != op) }

/-- The earliest time at which a timer is due. -/
def nextDeadline (w : World) : Option Nat := (w.timers.map (·.deadline)).min?

/-- Moves the clock and wakes the tasks whose timers are due, ordered by deadline and then by when they started. -/
def advanceTo (w : World) (t : Nat) : World :=
  let due := (w.timers.filter (·.deadline ≤ t)).mergeSort fun a b =>
    a.deadline < b.deadline || (a.deadline == b.deadline && a.number ≤ b.number)
  let rest := w.timers.filter (t < ·.deadline)
  due.foldl (fun w x => w.wake x.task) { w with now := t, timers := rest }

/-! ## Tokens -/

/-- Makes a new token. -/
def newToken (w : World) : TokenId × World := (w.tokens.size, { w with tokens := w.tokens.push {} })

/-- Whether a token has been tripped. -/
def isInterrupted (w : World) (t : TokenId) : Bool := (w.tokens[t]?.map (·.interrupted)).getD false

/-- Changes a token. -/
def modifyToken (w : World) (t : TokenId) (f : Token → Token) : World := { w with tokens := w.tokens.modify t f }

/-- Adds a reaction to a token that has not been tripped; on a tripped token nothing is added. -/
def subscribe (w : World) (t : TokenId) (r : Reaction) : Option Subscription × World :=
  match w.tokens[t]? with
  | none => (none, w)
  | some token =>
    if token.interrupted then (none, w)
    else
      (some { token := t, key := token.nextKey },
        w.modifyToken t fun x => { x with nextKey := x.nextKey + 1, entries := x.entries ++ [(x.nextKey, r)] })

/-- Removes the reaction of a subscription, if it is still there. What the removed closure owns is dropped by `Ownership.drop`. -/
def unsubscribe (w : World) (s : Subscription) : World :=
  w.modifyToken s.token fun x => { x with entries := x.entries.filter (·.1 != s.key) }

/-- Removes the listener of a subscription that code holds, if it is still there. What it owns is dropped by
`Ownership.discard`. -/
def withdraw (w : World) (s : Subscription) : World :=
  w.modifyToken s.token fun x => { x with entries := x.entries.filter fun e => e.1 != s.key || !e.2.isListener }

/-- Trips the latch of a token: its reactions are taken out and come back in the order in which they were added, and the
tasks that wait for the token are woken. A token that was tripped before has none to give. -/
def trip? (w : World) (t : TokenId) : Option (List Reaction × World) :=
  match w.tokens[t]? with
  | none => none
  | some token =>
    if token.interrupted then none
    else
      let w := w.modifyToken t fun x => { x with interrupted := true, entries := [] }
      let reactions := token.entries.map (·.2)
      some (reactions, (w.emit (.token t)).record (.tripped reactions.length))

/-! ## Host operations -/

/-- Starts an operation. -/
def newOperation (w : World) : OperationId × World :=
  (w.operations.size, { w with operations := w.operations.push {} })

/-- Changes an operation. -/
def modifyOperation (w : World) (op : OperationId) (f : Operation → Operation) : World :=
  { w with operations := w.operations.modify op f }

/-- Whether the hooks of an operation have been fired. -/
def isFired (w : World) (op : OperationId) : Bool := (w.operations[op]?.map (·.fired)).getD false

/-- Adds a hook to an operation; if its hooks have been fired, the answer is `false` and the caller runs the hook. -/
def addHook (w : World) (op : OperationId) (l : Listener) : Bool × World :=
  if w.isFired op then (false, w)
  else (true, w.modifyOperation op fun x => { x with hooks := x.hooks ++ [l] })

/-- Marks an operation as stopped and takes its hooks out. -/
def takeHooks (w : World) (op : OperationId) : List Listener × World :=
  let hooks := (w.operations[op]?.map (·.hooks)).getD []
  (hooks, w.modifyOperation op fun x => { x with fired := true, hooks := [] })

/-- Notes the current task as the one that awaits an operation. -/
def attend (w : World) (op : OperationId) : World := w.modifyOperation op fun x => { x with task := w.current }

/-- Wakes the task that awaits an operation. -/
def wakeOperation (w : World) (op : OperationId) : World :=
  match w.operations[op]? with
  | some { task := some t, .. } => w.wake t
  | _ => w

/-! ## Gates, counters, cells and names -/

/-- Whether a gate is open. -/
def isOpen (w : World) (gate : String) : Bool := w.openGates.contains gate

/-- Opens a gate and wakes the tasks that wait for it. -/
def openGate (w : World) (gate : String) : World :=
  if w.isOpen gate then w
  else { w with openGates := gate :: w.openGates }.emit (.gate gate)

/-- Whether what a signal announces has happened already. -/
def hasHappened (w : World) : Signal → Bool
  | .gate g => w.isOpen g
  | .token t => w.isInterrupted t
  | .task _ | .tracker _ => false

/-- A counter; one that was never incremented is zero. -/
def counter (w : World) (name : String) : Int := (w.counters.find? name).getD 0

end World

end Interruptible
