import Interruptible.Host.Perform

/-!
# What happens to tokens

Tokens are asked to trip and trip, are asked whether they have tripped, take listeners in or refuse them, lose those whose
subscription is dropped, and invoke those that they hold. `Action.tokenEvents` lists what happens of this kind while an action is
performed, with all that follows from it, and `TokenCall.events` what happens in the course of a call from outside. They follow
the definitions that perform actions, step by step, in the worlds through which these go.
-/

namespace Interruptible

/-- Something that happens to a token. -/
inductive TokenEvent where
  /-- The token is asked to trip. -/
  | called (t : TokenId)
  /-- Its latch trips. -/
  | tripped (t : TokenId)
  /-- Somebody asks whether it has been tripped. -/
  | asked (t : TokenId) (answer : Bool)
  /-- A reaction is handed to it: with a key if it is taken in, with none if it comes too late. -/
  | registered (t : TokenId) (r : Reaction) (key : Option Nat)
  /-- A subscription is dropped by the runtime. -/
  | dropped (s : Subscription)
  /-- A subscription is dropped by code, which can hold subscriptions of listeners only. -/
  | withdrawn (s : Subscription)
  /-- A reaction begins to run: one that was taken in under a key, or one that has come too late. -/
  | invoked (t : TokenId) (r : Reaction) (key : Option Nat)

/-- The token to which something happens. -/
def TokenEvent.token : TokenEvent → TokenId
  | .called t | .tripped t | .asked t _ | .registered t _ _ | .invoked t _ _ => t
  | .dropped s | .withdrawn s => s.token

/-- What happens to tokens when one of them is asked to trip. -/
abbrev TokenTracing := TokenId → World → List TokenEvent

/-- What happens to tokens while one thing is done after the other. -/
def TokenEvent.each {β : Type} (run : β → World → World) (events : β → World → List TokenEvent) :
    List β → World → List TokenEvent
  | [], _ => []
  | x :: xs, w => events x w ++ each run events xs (run x w)

/-- What a token holds. -/
def World.holds (w : World) (t : TokenId) : List (Nat × Reaction) := (w.tokens[t]?.map (·.entries)).getD []

section

variable (trip : Tripping) (seen : TokenTracing)

/-- What happens to tokens while a command is answered. -/
def Command.tokenEvents (w : World) : Command → List TokenEvent
  | .interrupt t => seen t w
  | .isInterrupted t => [.asked t (w.isInterrupted t)]
  | .link parent child =>
    let l := Listener.interrupting child
    match w.subscribe parent (.call l) with
    | (some s, _) => [.registered parent (.call l) (some s.key)]
    | (none, w) => .registered parent (.call l) none :: .invoked parent (.call l) none :: seen child w
  | .unsubscribe s => [.withdrawn s]
  | _ => []

/-- What happens to tokens while a listener runs. -/
def Listener.tokenEvents : Listener → World → List TokenEvent
  | .done, _ | .panic _, _ => []
  | .ask c next, w => c.tokenEvents seen w ++ (next (c.run trip w).1).tokenEvents (c.run trip w).2
  | .subscribe t l next, w =>
    match w.subscribe t (.call l) with
    | (some s, w) => .registered t (.call l) (some s.key) :: (next (some s)).tokenEvents w
    | (none, w) =>
      .registered t (.call l) none :: .invoked t (.call l) none ::
        (l.tokenEvents w ++ (next none).tokenEvents (l.invoke trip w))
  | .register op l next, w =>
    match w.addHook op l with
    | (true, w) => next.tokenEvents w
    | (false, w) => l.tokenEvents w ++ next.tokenEvents (l.invoke trip w)

/-- What happens to tokens when a reaction of a token is carried out. -/
def Reaction.tokenEvents : Reaction → World → List TokenEvent
  | .call l, w => l.tokenEvents trip seen w
  | .forward child, w => seen child w
  | .stop op, w =>
    TokenEvent.each (fun l w => l.invoke trip w) (fun l w => l.tokenEvents trip seen w) (w.takeHooks op).1 (w.takeHooks op).2

end

namespace World

/-- What happens to tokens when one of them is asked to trip, up to `n` trips deep. -/
def tripTokenEvents : Nat → TokenId → World → List TokenEvent
  | 0, _, _ => []
  | n + 1, t, w =>
    match w.trip? t with
    | none => [.called t]
    | some (_, w') =>
      .called t :: .tripped t ::
        TokenEvent.each (fun e w => e.2.run (fun t w => trip n t w) w)
          (fun e w =>
            .invoked t e.2 (some e.1) :: e.2.tokenEvents (fun t w => trip n t w) (fun t w => tripTokenEvents n t w) w)
          (w.holds t) w'

/-- What happens to tokens when one of them is asked to trip. -/
def interruptTokenEvents (t : TokenId) (w : World) : List TokenEvent := tripTokenEvents (w.tokens.size + 1) t w

/-- What happens to tokens when a reaction is handed to one of them: if it comes too late, it is carried out. -/
def reactTokenEvents (w : World) (t : TokenId) (r : Reaction) : List TokenEvent :=
  match w.subscribe t r with
  | (some s, _) => [.registered t r (some s.key)]
  | (none, w) => .registered t r none :: .invoked t r none :: r.tokenEvents interrupt interruptTokenEvents w

end World

/-- What happens to tokens while an action is performed. -/
def Action.tokenEvents {α : Type} : Action α → World → List TokenEvent
  | .pure _, _ | .panic _, _ => []
  | .ask c next, w =>
    c.tokenEvents World.interruptTokenEvents w ++
      (next (c.run World.interrupt w).1).tokenEvents (c.run World.interrupt w).2
  | .subscribe t l next, w =>
    w.reactTokenEvents t (.call l) ++ (next (w.react t (.call l)).1).tokenEvents (w.react t (.call l)).2
  | .register op l next, w =>
    match w.addHook op l with
    | (true, w) => next.tokenEvents w
    | (false, w) =>
      l.tokenEvents World.interrupt World.interruptTokenEvents w ++ next.tokenEvents (l.invoke World.interrupt w)

/-! ## Calls from outside -/

/-- A call that concerns tokens. -/
inductive TokenCall where
  /-- A token is made. -/
  | make
  /-- A reaction is registered. -/
  | listen (t : TokenId) (r : Reaction)
  /-- A subscription is dropped. -/
  | drop (s : Subscription)
  /-- A token is tripped. -/
  | interrupt (t : TokenId)
  /-- Code runs. -/
  | perform (a : Action Unit)

namespace TokenCall

/-- What a call does. -/
def run : TokenCall → World → World
  | .make, w => w.newToken.2
  | .listen t r, w => (w.react t r).2
  | .drop s, w => w.unsubscribe s
  | .interrupt t, w => w.interrupt t
  | .perform a, w => (a.run w).2

/-- What happens to tokens in the course of a call. -/
def events : TokenCall → World → List TokenEvent
  | .make, _ => []
  | .listen t r, w => w.reactTokenEvents t r
  | .drop s, _ => [.dropped s]
  | .interrupt t, w => w.interruptTokenEvents t
  | .perform a, w => a.tokenEvents w

/-- The world after some calls. -/
def runAll (calls : List TokenCall) (w : World) : World := calls.foldl (fun w c => c.run w) w

/-- What happens to tokens in the course of some calls. -/
def history (calls : List TokenCall) (w : World) : List TokenEvent := TokenEvent.each run events calls w

end TokenCall

end Interruptible
