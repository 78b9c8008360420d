import Interruptible.Proofs.World.Code
import Interruptible.Proofs.World.TokenEvents

/-!
# Closures that own subscriptions

A listener is a closure, and a closure may own subscriptions. What becomes of them when it is invoked is a matter of its code.
When it is removed before that, it is destroyed, and the subscriptions that it owns are dropped while the lock of its token is
held. A lock that is held is waited for, and for ever if it is held by whoever waits, or by somebody who waits for ever.

`Ownership` tells which subscriptions closures own. `Ownership.drop` and `Ownership.discard` drop a subscription, with all that
is destroyed by that, and `TokenCall.course` is the course of a call: what happens to tokens, the world that this leads to, and
whether the call returns or waits for ever. `Passage` strings such calls together; the locks that a call holds while it waits
stay held. Where closures own nothing, every call returns and does what `TokenCall.run` does (`Passage.afterAll_nothing`).
-/

namespace Interruptible

/-- Which subscriptions a closure owns when it is destroyed, for every closure that is registered, under its own subscription. A
subscription has one owner. -/
structure Ownership where
  owned : Subscription → List Subscription
  nodup : ∀ s, (owned s).Nodup
  single : ∀ s s' x, x ∈ owned s → x ∈ owned s' → s = s'

/-- Closures own nothing. -/
def Ownership.nothing : Ownership where
  owned _ := []
  nodup _ := List.nodup_nil
  single _ _ _ h := nomatch h

/-! ## Courses -/

/-- How code ends: with an answer, or in waiting for ever for a lock, while some locks are held. -/
inductive Upshot (α : Type) where
  | returned (a : α)
  | stuck (held : List TokenId)

/-- The course that code takes: what happens to tokens, the world that it leads to, and how it ends. -/
structure Course (α : Type) where
  events : List TokenEvent
  world : World
  upshot : Upshot α

namespace Course

variable {α β : Type}

/-- Something happens at once. -/
def step (es : List TokenEvent) (a : α) (w : World) : Course α := ⟨es, w, .returned a⟩

/-- A lock that is held is waited for. -/
def wait (held : List TokenId) (w : World) : Course α := ⟨[], w, .stuck held⟩

/-- The course has come to an end. -/
def Returns (c : Course α) : Prop := ∃ a, c.upshot = .returned a

/-- One thing after another, unless the first one waits for ever. -/
def andThen (c : Course α) (f : α → World → Course β) : Course β :=
  match c.upshot with
  | .returned a => { f a c.world with events := c.events ++ (f a c.world).events }
  | .stuck held => ⟨c.events, c.world, .stuck held⟩

/-- The same is done for one thing after the other. -/
def each (run : β → World → Course Unit) : List β → World → Course Unit
  | [], w => step [] () w
  | x :: xs, w => (run x w).andThen fun _ w => each run xs w

/-- The panic of a listener is recorded, and goes no further. -/
def noted (c : Course (Option Panic)) : Course Unit :=
  c.andThen fun
    | none, w => step [] () w
    | some p, w => step [] () (w.record (.listenerPanicked p))

end Course

/-- The course of tripping a token. -/
abbrev TripCourse := TokenId → World → Course Unit

/-! ## Dropping a subscription -/

namespace Ownership

variable (own : Ownership)

/-- What is destroyed together with the reaction of a subscription that is dropped, if there is one to be removed. -/
def freed (removable : Reaction → Bool) (w : World) (s : Subscription) : List Subscription :=
  if (w.holds s.token).any fun e => e.1 == s.key && removable e.2 then own.owned s else []

/-- Code drops a subscription while some locks are held. Under the lock of the token the listener is removed, and what it owns is
dropped. The depth of this is bounded, since each lock is taken once. -/
def discard : Nat → List TokenId → Subscription → World → Course Unit
  | 0, _, _, w => .step [] () w
  | n + 1, held, s, w =>
    if s.token ∈ held then .wait held w
    else
      (Course.step [.withdrawn s] () (w.withdraw s)).andThen fun _ v =>
        Course.each (discard n (s.token :: held)) (own.freed Reaction.isListener w s) v

/-- The runtime drops a subscription. -/
def drop (held : List TokenId) (s : Subscription) (w : World) : Course Unit :=
  if s.token ∈ held then .wait held w
  else
    (Course.step [.dropped s] () (w.unsubscribe s)).andThen fun _ v =>
      Course.each (own.discard (w.tokens.size + 1) (s.token :: held)) (own.freed (fun _ => true) w s) v

end Ownership

/-! ## Code and trips -/

/-- The course of handing a reaction to a token; one that comes too late is carried out when the lock has been given back. -/
def World.handCourse (held : List TokenId) (t : TokenId) (r : Reaction) (late : World → Course Unit) (w : World) :
    Course (Option Subscription) :=
  if t ∈ held then .wait held w
  else
    match w.subscribe t r with
    | (some s, w) => .step [.registered t r (some s.key)] (some s) w
    | (none, w) =>
      (Course.step [.registered t r none, .invoked t r none] () w).andThen fun _ w =>
        (late w).andThen fun _ w => .step [] none w

section

variable (own : Ownership) (held : List TokenId) (trip : TripCourse)

/-- The course of answering a command. -/
def Command.course (w : World) : (c : Command) → Course c.Reply
  | .interrupt t => trip t w
  | .isInterrupted t => .step [.asked t (w.isInterrupted t)] (w.isInterrupted t) w
  | .link parent child => w.handCourse held parent (.call (.interrupting child)) (trip child)
  | .unsubscribe s => own.discard (w.tokens.size + 1) held s w
  | c => .step [] (c.run World.interrupt w).1 (c.run World.interrupt w).2

/-- The course of a listener up to its end or its panic. -/
def Listener.course : Listener → World → Course (Option Panic)
  | .done, w => .step [] none w
  | .panic p, w => .step [] (some p) w
  | .ask c next, w => (c.course own held trip w).andThen fun r w => (next r).course w
  | .subscribe t l next, w =>
    (w.handCourse held t (.call l) fun w => (l.course w).noted).andThen fun s w => (next s).course w
  | .register op l next, w =>
    match w.addHook op l with
    | (true, w) => next.course w
    | (false, w) => (l.course w).noted.andThen fun _ w => next.course w

/-- The course of what stands on a token that trips. -/
def Reaction.course : Reaction → World → Course Unit
  | .call l, w => (l.course own held trip w).noted
  | .forward child, w => trip child w
  | .stop op, w =>
    (Course.each (fun l w => (l.course own held trip w).noted) (w.takeHooks op).1 (w.takeHooks op).2).andThen fun _ w =>
      .step [] () (w.wakeOperation op)

end

namespace World

variable (own : Ownership) (held : List TokenId)

/-- The course of invoking what a token has given out. -/
def fire (t : TokenId) (run : Nat × Reaction → World → Course Unit) (due : List (Nat × Reaction)) (w : World) : Course Unit :=
  Course.each (fun e w => (Course.step [.invoked t e.2 (some e.1)] () w).andThen fun _ w => run e w) due w

/-- The course of tripping a token, up to `n` trips deep. The lock has been given back when the listeners are invoked. -/
def tripCourse : Nat → TokenId → World → Course Unit
  | 0, _, w => .step [] () w
  | n + 1, t, w =>
    if t ∈ held then .wait held w
    else
      match w.trip? t with
      | none => .step [.called t] () w
      | some (_, w') =>
        (Course.step [.called t, .tripped t] () w').andThen fun _ w' =>
          w'.fire t (fun e w => e.2.course own held (fun t w => tripCourse n t w) w) (w.holds t)

/-- The course of tripping a token. -/
def interruptCourse (t : TokenId) (w : World) : Course Unit := w.tripCourse own held (w.tokens.size + 1) t

/-- The course of registering a reaction. -/
def reactCourse (w : World) (t : TokenId) (r : Reaction) : Course (Option Subscription) :=
  w.handCourse held t r (r.course own held (interruptCourse own held))

end World

section

variable (own : Ownership) (held : List TokenId)

/-- The course of an action. -/
def Action.course {α : Type} : Action α → World → Course (Except Panic α)
  | .pure a, w => .step [] (.ok a) w
  | .panic p, w => .step [] (.error p) w
  | .ask c next, w => (c.course own held (World.interruptCourse own held) w).andThen fun r w => (next r).course w
  | .subscribe t l next, w => (w.reactCourse own held t (.call l)).andThen fun s w => (next s).course w
  | .register op l next, w =>
    match w.addHook op l with
    | (true, w) => next.course w
    | (false, w) => (l.course own held (World.interruptCourse own held) w).noted.andThen fun _ w => next.course w

/-- The course of a call, while some locks are held by calls that wait for ever. -/
def TokenCall.course : TokenCall → World → Course Unit
  | .make, w => .step [] () w.newToken.2
  | .listen t r, w => (w.reactCourse own held t r).andThen fun _ w => .step [] () w
  | .drop s, w => own.drop held s w
  | .interrupt t, w => w.interruptCourse own held t
  | .perform a, w => (a.course own held w).andThen fun _ w => .step [] () w

end

/-! ## One call after another -/

/-- What some calls have come to: what has happened to tokens, the world that this has led to, and the locks that calls hold
which wait for ever. -/
structure Passage where
  events : List TokenEvent := []
  world : World
  held : List TokenId := []

/-- The locks that stay held after a call. -/
def Upshot.held {α : Type} (before : List TokenId) : Upshot α → List TokenId
  | .returned _ => before
  | .stuck held => held

namespace Passage

/-- No call has been made yet. -/
def start (w : World) : Passage := { world := w }

variable (own : Ownership)

/-- One more call is made. If earlier calls wait for ever, somebody else makes it. -/
def after (s : Passage) (c : TokenCall) : Passage :=
  let x := c.course own s.held s.world
  { events := s.events ++ x.events, world := x.world, held := x.upshot.held s.held }

/-- Some calls are made. -/
def afterAll (s : Passage) (calls : List TokenCall) : Passage := calls.foldl (after own) s

end Passage

/-! ## Closures that own nothing -/

namespace Course

variable {α β : Type} {es es' : List TokenEvent} {w v : World} {a : α} {b : β} {c : Course α} {f : α → World → Course β}

/-- After something that returns, what follows is done with its answer. -/
theorem andThen_of_returned (h : c.upshot = .returned a) :
    c.andThen f = { f a c.world with events := c.events ++ (f a c.world).events } := by
  unfold andThen
  rw [h]

/-- After something that waits for ever, nothing follows. -/
theorem andThen_of_stuck {held : List TokenId} (h : c.upshot = .stuck held) :
    c.andThen f = ⟨c.events, c.world, .stuck held⟩ := by
  unfold andThen
  rw [h]

/-- Two steps are one. -/
theorem andThen_step (h : c = step es a w) (hf : f a w = step es' b v) : c.andThen f = step (es ++ es') b v := by
  subst h
  simp [andThen, step, hf]

/-- A step at which nothing happens to tokens comes last. -/
theorem andThen_quiet (h : c = step es a w) (hf : f a w = step [] b v) : c.andThen f = step es b v :=
  (andThen_step h hf).trans (by rw [List.append_nil])

/-- What is done at once for each thing is done at once for all of them. -/
theorem each_step {run : β → World → Course Unit} {events : β → World → List TokenEvent} {next : β → World → World}
    (h : ∀ x w, run x w = step (events x w) () (next x w)) (xs : List β) (w : World) :
    each run xs w = step (TokenEvent.each next events xs w) () (xs.foldl (fun w x => next x w) w) := by
  induction xs generalizing w with
  | nil => rfl
  | cons x xs ih =>
    exact andThen_step (h x w) (ih _)

end Course

/-- Where closures own nothing, code that drops a subscription does this at once. -/
theorem Ownership.discard_nothing (n : Nat) (s : Subscription) (w : World) :
    Ownership.nothing.discard (n + 1) [] s w = .step [.withdrawn s] () (w.withdraw s) := by
  have hfreed : Ownership.nothing.freed Reaction.isListener w s = [] := ite_self _
  simp only [Ownership.discard, List.not_mem_nil, if_false, hfreed]
  rfl

/-- Where closures own nothing, the runtime drops a subscription at once. -/
theorem Ownership.drop_nothing (s : Subscription) (w : World) :
    Ownership.nothing.drop [] s w = .step [.dropped s] () (w.unsubscribe s) := by
  have hfreed : Ownership.nothing.freed (fun _ => true) w s = [] := ite_self _
  simp only [Ownership.drop, List.not_mem_nil, if_false, hfreed]
  rfl

/-- A reaction that is taken in is handed to a token at once. -/
theorem World.handCourse_some {t : TokenId} {r : Reaction} {late : World → Course Unit} {s : Subscription} {w w' : World}
    (h : w.subscribe t r = (some s, w')) :
    w.handCourse [] t r late = .step [.registered t r (some s.key)] (some s) w' := by
  simp only [World.handCourse, List.not_mem_nil, if_false, h]

/-- A reaction that comes too late is handed to a token at once, if it is carried out at once. -/
theorem World.handCourse_none {t : TokenId} {r : Reaction} {late : World → Course Unit} {es : List TokenEvent} {w w' v : World}
    (h : w.subscribe t r = (none, w')) (hl : late w' = .step es () v) :
    w.handCourse [] t r late = .step (.registered t r none :: .invoked t r none :: es) none v := by
  simp only [World.handCourse, List.not_mem_nil, if_false, h]
  exact Course.andThen_step rfl (Course.andThen_quiet hl rfl)

section

variable {trip : Tripping} {seen : TokenTracing} {course : TripCourse}
  (ht : ∀ t w, course t w = .step (seen t w) () (trip t w))

/-- A panic is recorded at once. -/
theorem Listener.noted_nothing {l : Listener} {es : List TokenEvent} {w : World} {c : Course (Option Panic)}
    (h : c = .step es (l.run trip w).1 (l.run trip w).2) : c.noted = .step es () (l.invoke trip w) := by
  rw [h, Course.noted, Listener.invoke]
  rcases l.run trip w with ⟨_ | p, w'⟩ <;> simp [Course.andThen, Course.step]

include ht

/-- Where closures own nothing and trips happen at once, commands are answered at once. -/
theorem Command.course_nothing (c : Command) (w : World) :
    c.course .nothing [] course w = .step (c.tokenEvents seen w) (c.run trip w).1 (c.run trip w).2 := by
  cases c with
  | interrupt t => exact ht t w
  | unsubscribe s => exact Ownership.discard_nothing _ s w
  | link parent child =>
    simp only [Command.course, Command.run, Command.tokenEvents]
    rcases h : w.subscribe parent (.call (.interrupting child)) with ⟨_ | s, w'⟩
    · exact World.handCourse_none h (ht child w')
    · exact World.handCourse_some h
  | _ => rfl

/-- Where closures own nothing and trips happen at once, listeners run at once. -/
theorem Listener.course_nothing (l : Listener) (w : World) :
    l.course .nothing [] course w = .step (l.tokenEvents trip seen w) (l.run trip w).1 (l.run trip w).2 := by
  induction l generalizing w with
  | done => rfl
  | panic p => rfl
  | ask c next ih =>
    exact Course.andThen_step (c.course_nothing ht w) (ih _ _)
  | subscribe t l next ihl ihn =>
    simp only [Listener.course, Listener.tokenEvents]
    rcases h : w.subscribe t (.call l) with ⟨_ | s, w'⟩
    · rw [Listener.run_subscribe_none next h]
      exact Course.andThen_step (World.handCourse_none h (Listener.noted_nothing (ihl w'))) (ihn _ _)
    · simp only [Listener.run, h]
      exact Course.andThen_step (World.handCourse_some h) (ihn _ _)
  | register op l next ihl ihn =>
    simp only [Listener.course, Listener.tokenEvents]
    rcases h : w.addHook op l with ⟨_ | _, w'⟩
    · rw [Listener.run_register_late next h]
      exact Course.andThen_step (Listener.noted_nothing (ihl w')) (ihn _)
    · simp only [Listener.run, h]
      exact ihn _

/-- Where closures own nothing and trips happen at once, reactions are carried out at once. -/
theorem Reaction.course_nothing (r : Reaction) (w : World) :
    r.course .nothing [] course w = .step (r.tokenEvents trip seen w) () (r.run trip w) := by
  cases r with
  | call l => exact Listener.noted_nothing (l.course_nothing ht w)
  | forward child => exact ht child w
  | stop op =>
    have hhooks := Course.each_step (fun (l : Listener) w => Listener.noted_nothing (l.course_nothing ht w))
      (w.takeHooks op).1 (w.takeHooks op).2
    simp only [Reaction.course, hhooks]
    exact Course.andThen_quiet rfl rfl

end

namespace World

/-- A token that trips gives out what it holds. -/
theorem trip?_given {t : TokenId} {w w' : World} {reactions : List Reaction} (h : w.trip? t = some (reactions, w')) :
    reactions = (w.holds t).map (·.2) := by
  unfold trip? at h
  unfold holds
  split at h
  · nomatch h
  · rename_i token ht
    split at h
    · nomatch h
    · rw [ht]
      exact (Prod.mk.inj (Option.some.inj h)).1.symm

/-- Where closures own nothing, trips happen at once. The induction is on their depth. -/
theorem tripCourse_nothing (n : Nat) (t : TokenId) (w : World) :
    w.tripCourse .nothing [] n t = .step (tripTokenEvents n t w) () (trip n t w) := by
  induction n generalizing t w with
  | zero => rfl
  | succ n ih =>
    simp only [tripCourse, tripTokenEvents, trip, List.not_mem_nil, if_false]
    rcases h : w.trip? t with _ | ⟨reactions, w'⟩
    · rfl
    · have heach := Course.each_step (fun (e : Nat × Reaction) w =>
          Course.andThen_step (c := .step [.invoked t e.2 (some e.1)] () w)
            (f := fun _ w => e.2.course .nothing [] (fun t w => tripCourse .nothing [] n t w) w) rfl
            (e.2.course_nothing ih w)) (w.holds t) w'
      simp only [trip?_given h, List.foldl_map]
      exact Course.andThen_step rfl heach

/-- Where closures own nothing, a token is interrupted at once. -/
theorem interruptCourse_nothing (t : TokenId) (w : World) :
    w.interruptCourse .nothing [] t = .step (w.interruptTokenEvents t) () (w.interrupt t) := w.tripCourse_nothing _ t

/-- Where closures own nothing, a token is subscribed to at once. -/
theorem reactCourse_nothing (w : World) (t : TokenId) (r : Reaction) :
    w.reactCourse .nothing [] t r = .step (w.reactTokenEvents t r) (w.react t r).1 (w.react t r).2 := by
  simp only [reactCourse, reactTokenEvents, react]
  rcases h : w.subscribe t r with ⟨_ | s, w'⟩
  · exact handCourse_none h (r.course_nothing (fun t w => interruptCourse_nothing t w) w')
  · exact handCourse_some h

end World

/-- Where closures own nothing, actions are performed at once, with the same events, the same world and the same answer. -/
theorem Action.course_nothing {α : Type} (a : Action α) (w : World) :
    a.course .nothing [] w = .step (a.tokenEvents w) (a.run w).1 (a.run w).2 := by
  have ht (t : TokenId) (w : World) := World.interruptCourse_nothing t w
  induction a generalizing w with
  | pure a => rfl
  | panic p => rfl
  | ask c next ih =>
    exact Course.andThen_step (c.course_nothing ht w) (ih _ _)
  | subscribe t l next ih =>
    exact Course.andThen_step (w.reactCourse_nothing t (.call l)) (ih _ _)
  | register op l next ih =>
    simp only [Action.course, Action.run, Action.tokenEvents]
    rcases w.addHook op l with ⟨_ | _, w'⟩
    · exact Course.andThen_step (Listener.noted_nothing (l.course_nothing ht w')) (ih _)
    · exact ih _

/-- A call returns, and does what is said of it for code whose closures own nothing. -/
theorem TokenCall.course_nothing (c : TokenCall) (w : World) :
    c.course .nothing [] w = .step (c.events w) () (c.run w) := by
  cases c with
  | make => rfl
  | listen t r => exact Course.andThen_quiet (w.reactCourse_nothing t r) rfl
  | drop s => exact Ownership.drop_nothing s w
  | interrupt t => exact w.interruptCourse_nothing t
  | perform a => exact Course.andThen_quiet (a.course_nothing w) rfl

end Interruptible
