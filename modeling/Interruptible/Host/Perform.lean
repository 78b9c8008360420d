import Interruptible.Host.World

/-!
# Performing actions

How commands, listeners, actions and futures change the world. Tripping a token runs its reactions in order, and these may
trip further tokens. The recursion is bounded by the number of tokens, since a token trips at most once: `World.trip n`
handles chains of up to `n` trips, and `World.interrupt` starts with more than there are tokens.
-/

namespace Interruptible

/-- How a token is tripped: the function that the definitions below call when a token has to trip. -/
abbrev Tripping := TokenId → World → World

/-- Answers a command. -/
def Command.run (trip : Tripping) (w : World) : (c : Command) → c.Reply × World
  | .log v => ((), { w with log := w.log.push v })
  | .bump name =>
    let n := w.counter name + 1
    (n, { w with counters := w.counters.set name n })
  | .counter name => (w.counter name, w)
  | .now => (w.now, w)
  | .openGate g => ((), w.openGate g)
  | .interrupt t => ((), trip t w)
  | .isInterrupted t => (w.isInterrupted t, w)
  | .link parent child =>
    match w.subscribe parent (.call (.interrupting child)) with
    | (some s, w) => (some s, w)
    | (none, w) => (none, trip child w)
  | .unsubscribe s => ((), w.withdraw s)
  | .isFired op => (w.isFired op, w)
  | .newCell => (w.cells.size, { w with cells := w.cells.push none })
  | .fill c p => ((), { w with cells := w.cells.modify c fun _ => some p })
  | .take c => ((w.cells[c]?).join, { w with cells := w.cells.modify c fun _ => none })
  | .findToken name => (w.names.tokens.find? name, w)
  | .findCancel name => (w.names.cancels.find? name, w)
  | .findHooks name => (w.names.hooks.find? name, w)
  | .keepHooks name op => ((), { w with names := { w.names with hooks := w.names.hooks.set name op } })
  | .keepSubscription name s =>
    (w.names.subscriptions.find? name,
      { w with names := { w.names with subscriptions := w.names.subscriptions.set name s } })
  | .takeSubscription name =>
    (w.names.subscriptions.find? name,
      { w with names := { w.names with subscriptions := w.names.subscriptions.erase name } })

/-- Runs the code of a listener up to its end or its panic. A listener that it registers too late runs at once, and a panic
of that one is recorded and goes no further. -/
def Listener.run (trip : Tripping) : Listener → World → Option Panic × World
  | .done, w => (none, w)
  | .panic p, w => (some p, w)
  | .ask c next, w =>
    let (r, w) := c.run trip w
    (next r).run trip w
  | .subscribe t l next, w =>
    match w.subscribe t (.call l) with
    | (some s, w) => (next (some s)).run trip w
    | (none, w) =>
      match l.run trip w with
      | (none, w) => (next none).run trip w
      | (some p, w) => (next none).run trip (w.record (.listenerPanicked p))
  | .register op l next, w =>
    match w.addHook op l with
    | (true, w) => next.run trip w
    | (false, w) =>
      match l.run trip w with
      | (none, w) => next.run trip w
      | (some p, w) => next.run trip (w.record (.listenerPanicked p))

/-- Runs a listener; a panic is recorded and goes no further. -/
def Listener.invoke (trip : Tripping) (l : Listener) (w : World) : World :=
  match l.run trip w with
  | (none, w) => w
  | (some p, w) => w.record (.listenerPanicked p)

/-- Runs what stands on a token that trips. -/
def Reaction.run (trip : Tripping) : Reaction → World → World
  | .call l, w => l.invoke trip w
  | .forward child, w => trip child w
  | .stop op, w =>
    let (hooks, w) := w.takeHooks op
    (hooks.foldl (fun w l => l.invoke trip w) w).wakeOperation op

namespace World

/-- Trips a token and everything that follows from it, up to `n` trips deep. -/
def trip : Nat → TokenId → World → World
  | 0, _, w => w
  | n + 1, t, w =>
    match w.trip? t with
    | none => w
    | some (reactions, w) => reactions.foldl (fun w r => r.run (fun t w => trip n t w) w) w

/-- Trips a token and everything that follows from it. -/
def interrupt (t : TokenId) (w : World) : World := trip (w.tokens.size + 1) t w

/-- Registers a reaction on a token; on a token that has been tripped it runs at once. -/
def react (w : World) (t : TokenId) (r : Reaction) : Option Subscription × World :=
  match w.subscribe t r with
  | (some s, w) => (some s, w)
  | (none, w) => (none, r.run interrupt w)

end World

/-- Performs an action: its result or its panic, and the world it leaves. -/
def Action.run {α : Type} : Action α → World → Except Panic α × World
  | .pure a, w => (.ok a, w)
  | .panic p, w => (.error p, w)
  | .ask c next, w =>
    let (r, w) := c.run World.interrupt w
    (next r).run w
  | .subscribe t l next, w =>
    let (s, w) := w.react t (.call l)
    (next s).run w
  | .register op l next, w =>
    match w.addHook op l with
    | (true, w) => next.run w
    | (false, w) => next.run (l.invoke World.interrupt w)

/-- What one poll of a future comes to. -/
inductive Poll where
  | pending (rest : Future)
  | settled (r : Except Value Payload)
  | panicked (p : Panic)

/-- Polls a future for an operation: it runs until it settles or has to wait. -/
def Future.poll (op : OperationId) : Future → World → Poll × World
  | .settle r, w => (.settled r, w)
  | .panic p, w => (.panicked p, w)
  | .never, w => (.pending .never, w)
  | .ask c next, w =>
    let (r, w) := c.run World.interrupt w
    (next r).poll op w
  | .subscribe t l next, w =>
    let (s, w) := w.react t (.call l)
    (next s).poll op w
  | .register h l next, w =>
    match w.addHook h l with
    | (true, w) => next.poll op w
    | (false, w) => next.poll op (l.invoke World.interrupt w)
  | .sleep ms next, w =>
    if ms = 0 then next.poll op w
    else (.pending (.sleepUntil (w.now + ms) next), w.startTimer (w.now + ms) op)
  | .sleepUntil t next, w => if t ≤ w.now then next.poll op w else (.pending (.sleepUntil t next), w)
  | .yield 0 next, w => next.poll op w
  | .yield (n + 1) next, w => (.pending (.yield n next), w.wakeCurrent)
  | .wait s next, w =>
    if w.hasHappened s then next.poll op w else (.pending (.wait s next), w.park s op)

end Interruptible
