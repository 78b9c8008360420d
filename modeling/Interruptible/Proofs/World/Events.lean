import Interruptible.Proofs.World.Later

/-!
# What happens while code runs

Tokens trip, operations are stopped, and hooks are registered and invoked. `Action.events` lists what an action does of this
kind, in its order, with all that follows from it; so do `Future.events` for a poll of a future and `World.interruptEvents` for a
trip. They follow the definitions that perform actions, step by step, in the worlds through which these go.

A relation between the world before, what happens, and the world after that the single steps respect (`World.Labelled`) is
respected by all code and by trips (`Action.run_labelled`, `Future.poll_labelled`, `World.interrupt_labelled`).
-/

namespace Interruptible

/-- Something that happens to a token or to a host operation. -/
inductive HostEvent where
  /-- The factory of an operation's future is called. -/
  | called (op : OperationId)
  /-- The future of an operation is polled. -/
  | polled (op : OperationId)
  /-- An operation is no longer awaited. -/
  | resolved (op : OperationId)
  /-- The latch of a token trips. -/
  | tripped (t : TokenId)
  /-- A trip has come to an operation: its hooks are taken out. -/
  | stopped (op : OperationId)
  /-- A hook is handed to an operation. -/
  | registered (op : OperationId) (l : Listener)
  /-- A hook of an operation begins to run. -/
  | invoked (op : OperationId) (l : Listener)

/-- What happens when a token is tripped. -/
abbrev Tracing := TokenId → World → List HostEvent

/-! ## Listeners and trips -/

section

variable (trip : Tripping) (seen : Tracing)

/-- What happens while a command is answered. -/
def Command.events (w : World) : Command → List HostEvent
  | .interrupt t => seen t w
  | .link parent child =>
    match w.subscribe parent (.call (.interrupting child)) with
    | (some _, _) => []
    | (none, w) => seen child w
  | _ => []

/-- What happens while a listener runs. -/
def Listener.events : Listener → World → List HostEvent
  | .done, _ | .panic _, _ => []
  | .ask c next, w => c.events seen w ++ (next (c.run trip w).1).events (c.run trip w).2
  | .subscribe t l next, w =>
    match w.subscribe t (.call l) with
    | (some s, w) => (next (some s)).events w
    | (none, w) => l.events w ++ (next none).events (l.invoke trip w)
  | .register op l next, w =>
    match w.addHook op l with
    | (true, w) => .registered op l :: next.events w
    | (false, w) => .registered op l :: .invoked op l :: (l.events w ++ next.events (l.invoke trip w))

/-- What happens while one thing is done after the other. -/
def HostEvent.each {β : Type} (run : β → World → World) (events : β → World → List HostEvent) :
    List β → World → List HostEvent
  | [], _ => []
  | x :: xs, w => events x w ++ each run events xs (run x w)

/-- What happens when a reaction of a token that trips is carried out. -/
def Reaction.events : Reaction → World → List HostEvent
  | .call l, w => l.events trip seen w
  | .forward child, w => seen child w
  | .stop op, w =>
    let (hooks, w) := w.takeHooks op
    .stopped op :: HostEvent.each (fun l w => l.invoke trip w) (fun l w => .invoked op l :: l.events trip seen w) hooks w

end

namespace World

/-- What happens when a token is tripped, up to `n` trips deep. -/
def tripEvents : Nat → TokenId → World → List HostEvent
  | 0, _, _ => []
  | n + 1, t, w =>
    match w.trip? t with
    | none => []
    | some (reactions, w) =>
      .tripped t ::
        HostEvent.each (fun r w => r.run (fun t w => trip n t w) w)
          (fun r w => r.events (fun t w => trip n t w) (fun t w => tripEvents n t w) w) reactions w

/-- What happens when a token is tripped. -/
def interruptEvents (t : TokenId) (w : World) : List HostEvent := tripEvents (w.tokens.size + 1) t w

/-- What happens when a reaction is registered: on a token that has been tripped it is carried out. -/
def reactEvents (w : World) (t : TokenId) (r : Reaction) : List HostEvent :=
  match w.subscribe t r with
  | (some _, _) => []
  | (none, w) => r.events interrupt interruptEvents w

end World

/-! ## Actions and futures -/

/-- What happens while an action is performed. -/
def Action.events {α : Type} : Action α → World → List HostEvent
  | .pure _, _ | .panic _, _ => []
  | .ask c next, w =>
    c.events World.interruptEvents w ++ (next (c.run World.interrupt w).1).events (c.run World.interrupt w).2
  | .subscribe t l next, w =>
    w.reactEvents t (.call l) ++ (next (w.react t (.call l)).1).events (w.react t (.call l)).2
  | .register op l next, w =>
    match w.addHook op l with
    | (true, w) => .registered op l :: next.events w
    | (false, w) =>
      .registered op l :: .invoked op l ::
        (l.events World.interrupt World.interruptEvents w ++ next.events (l.invoke World.interrupt w))

/-- What happens while a future is polled for an operation. -/
def Future.events (op : OperationId) : Future → World → List HostEvent
  | .settle _, _ | .panic _, _ | .never, _ => []
  | .ask c next, w =>
    c.events World.interruptEvents w ++ (next (c.run World.interrupt w).1).events op (c.run World.interrupt w).2
  | .subscribe t l next, w =>
    w.reactEvents t (.call l) ++ (next (w.react t (.call l)).1).events op (w.react t (.call l)).2
  | .register h l next, w =>
    match w.addHook h l with
    | (true, w) => .registered h l :: next.events op w
    | (false, w) =>
      .registered h l :: .invoked h l ::
        (l.events World.interrupt World.interruptEvents w ++ next.events op (l.invoke World.interrupt w))
  | .sleep ms next, w => if ms = 0 then next.events op w else []
  | .sleepUntil t next, w => if t ≤ w.now then next.events op w else []
  | .yield 0 next, w => next.events op w
  | .yield (_ + 1) _, _ => []
  | .wait s next, w => if w.hasHappened s then next.events op w else []

/-! ## Worlds with the same tokens and operations -/

namespace World

/-- Two worlds with the same tokens and the same operations. -/
structure Steady (w w' : World) : Prop where
  tokens : w'.tokens = w.tokens
  operations : w'.operations = w.operations

namespace Steady

theorem refl (w : World) : Steady w w := ⟨rfl, rfl⟩

theorem trans {w₁ w₂ w₃ : World} (h : Steady w₁ w₂) (h' : Steady w₂ w₃) : Steady w₁ w₃ :=
  ⟨h'.tokens.trans h.tokens, h'.operations.trans h.operations⟩

/-- Records leave tokens and operations as they are. -/
theorem record (w : World) (r : Record) : Steady w (w.record r) := ⟨rfl, rfl⟩

/-- Waking a task leaves tokens and operations as they are. -/
theorem wake (w : World) (t : TaskId) : Steady w (w.wake t) := ⟨(tokens_wake w t).1, (tokens_wake w t).2⟩

/-- Waking several tasks leaves tokens and operations as they are. -/
theorem foldl_wake {β : Type} (f : β → TaskId) (xs : List β) (w : World) :
    Steady w (xs.foldl (fun w x => w.wake (f x)) w) := by
  induction xs generalizing w with
  | nil => exact refl w
  | cons x xs ih => exact (wake w (f x)).trans (ih _)

/-- Waking the current task leaves tokens and operations as they are. -/
theorem wakeCurrent (w : World) : Steady w w.wakeCurrent := by
  unfold World.wakeCurrent
  split
  · exact wake w _
  · exact refl w

/-- Waking the task of an operation leaves tokens and operations as they are. -/
theorem wakeOperation (w : World) (op : OperationId) : Steady w (w.wakeOperation op) := by
  unfold World.wakeOperation
  split
  · exact wake w _
  · exact refl w

/-- An announcement leaves tokens and operations as they are. -/
theorem emit (w : World) (s : Signal) : Steady w (w.emit s) := by
  have hrest : Steady w { w with waiters := w.waiters.filter (·.signal != s) } := ⟨rfl, rfl⟩
  exact hrest.trans (foldl_wake Waiter.task _ _)

/-- Opening a gate leaves tokens and operations as they are. -/
theorem openGate (w : World) (g : String) : Steady w (w.openGate g) := by
  unfold World.openGate
  split
  · exact refl w
  · have hopen : Steady w { w with openGates := g :: w.openGates } := ⟨rfl, rfl⟩
    exact hopen.trans (emit _ _)

/-- A place in line leaves tokens and operations as they are. -/
theorem park (w : World) (s : Signal) (op : OperationId) : Steady w (w.park s op) := by
  unfold World.park
  split
  · exact refl w
  · split
    · exact refl w
    · exact ⟨rfl, rfl⟩

/-- A timer leaves tokens and operations as they are. -/
theorem startTimer (w : World) (deadline : Nat) (op : OperationId) : Steady w (w.startTimer deadline op) := by
  unfold World.startTimer
  split
  · exact refl w
  · exact ⟨rfl, rfl⟩

end Steady

/-- A token that trips is emptied and latched; the other tokens and the operations are as before. -/
theorem trip?_steady {w w' : World} {t : TokenId} {reactions : List Reaction} (h : w.trip? t = some (reactions, w')) :
    t < w.tokens.size ∧
      Steady (w.modifyToken t fun x => { x with interrupted := true, entries := [] }) w' := by
  unfold trip? at h
  split at h
  · nomatch h
  · rename_i token ht
    split at h
    · nomatch h
    · obtain ⟨-, rfl⟩ := Prod.mk.inj (Option.some.inj h)
      exact ⟨(Array.getElem?_eq_some_iff.mp ht).1, (Steady.emit _ _).trans (.record _ _)⟩

/-- Relations between an earlier world, what happens, and a later world that the single steps respect of which code is made. -/
structure Labelled (R : World → List HostEvent → World → Prop) : Prop where
  trans : ∀ {w₁ w₂ w₃ es es'}, R w₁ es w₂ → R w₂ es' w₃ → R w₁ (es ++ es') w₃
  steady : ∀ {w w'}, Steady w w' → R w [] w'
  subscribe : ∀ w t l, R w [] (w.subscribe t (.call l)).2
  withdraw : ∀ w s, R w [] (w.withdraw s)
  /-- A hook joins those that wait. -/
  registered : ∀ w op l, w.isFired op = false →
    R w [.registered op l] (w.modifyOperation op fun x => { x with hooks := x.hooks ++ [l] })
  /-- A hook that comes too late to wait begins to run. -/
  late : ∀ w op l, w.isFired op = true → R w [.registered op l, .invoked op l] w
  tripped : ∀ {w w' t reactions}, w.trip? t = some (reactions, w') → R w [.tripped t] w'
  /-- An operation is stopped, if its hooks respect the relation when they run. -/
  stopped : ∀ {trip seen}, (∀ (l : Listener) w, R w (l.events trip seen w) (l.invoke trip w)) → ∀ op w,
    R w ((Reaction.stop op).events trip seen w) ((Reaction.stop op).run trip w)

end World

variable {R : World → List HostEvent → World → Prop}

/-- Stopping an operation respects a relation if it respects that the hooks are taken out and that each of them begins to run. -/
theorem World.stop_labelled (trans : ∀ {w₁ w₂ w₃ es es'}, R w₁ es w₂ → R w₂ es' w₃ → R w₁ (es ++ es') w₃)
    (steady : ∀ {w w'}, World.Steady w w' → R w [] w') {trip : Tripping} {seen : Tracing}
    (hc : ∀ (l : Listener) w, R w (l.events trip seen w) (l.invoke trip w)) {op : OperationId} {w : World}
    (htake : R w [.stopped op] (w.takeHooks op).2) (hinvoked : ∀ l v, R v [.invoked op l] v) :
    R w ((Reaction.stop op).events trip seen w) ((Reaction.stop op).run trip w) := by
  have heach (ls : List Listener) (v : World) :
      R v (HostEvent.each (fun l w => l.invoke trip w) (fun l w => .invoked op l :: l.events trip seen w) ls v)
        (ls.foldl (fun w l => l.invoke trip w) v) := by
    induction ls generalizing v with
    | nil => exact steady (.refl v)
    | cons l ls ih => exact trans (trans (hinvoked l v) (hc l v)) (ih _)
  have hrun := trans (heach (w.takeHooks op).1 (w.takeHooks op).2) (steady (.wakeOperation _ op))
  rw [List.append_nil] at hrun
  exact trans htake hrun

/-! ## What code respects -/

section

variable {trip : Tripping} {seen : Tracing} (hR : World.Labelled R) (ht : ∀ t w, R w (seen t w) (trip t w))

include hR

theorem World.Labelled.refl (w : World) : R w [] w := hR.steady (.refl w)

/-- What is done for one thing after the other is labelled with what happens for each of them. -/
theorem World.Labelled.each {β : Type} {run : β → World → World} {events : β → World → List HostEvent}
    (h : ∀ x w, R w (events x w) (run x w)) (xs : List β) (w : World) :
    R w (HostEvent.each run events xs w) (xs.foldl (fun w x => run x w) w) := by
  induction xs generalizing w with
  | nil => exact hR.refl w
  | cons x xs ih => exact hR.trans (h x w) (ih _)

/-- A hook joins those that wait, or it begins to run. -/
theorem World.Labelled.hook (w : World) (op : OperationId) (l : Listener) :
    R w (.registered op l :: if (w.addHook op l).1 then [] else [.invoked op l]) (w.addHook op l).2 := by
  unfold World.addHook
  split
  · rename_i hf
    exact hR.late w op l hf
  · rename_i hf
    exact hR.registered w op l (Bool.eq_false_iff.mpr hf)

/-- A panic of a listener is noted, and nothing happens by that. -/
theorem World.Labelled.invoke {l : Listener} {w : World} {es : List HostEvent} (h : R w es (l.run trip w).2) :
    R w es (l.invoke trip w) := by
  unfold Listener.invoke
  rcases hl : l.run trip w with ⟨_ | p, w'⟩ <;> rw [hl] at h
  · exact h
  · have hnoted := hR.trans h (hR.steady (.record w' (.listenerPanicked p)))
    rwa [List.append_nil] at hnoted

include ht

/-- A command is labelled with what happens while it is answered, if trips are. -/
theorem Command.run_labelled (w : World) (c : Command) : R w (c.events seen w) (c.run trip w).2 := by
  cases c with
  | interrupt t => exact ht t w
  | openGate g => exact hR.steady (.openGate w g)
  | unsubscribe s => exact hR.withdraw w s
  | link parent child =>
    have hs := hR.subscribe w parent (.interrupting child)
    simp only [Command.run, Command.events]
    rcases h : w.subscribe parent (.call (.interrupting child)) with ⟨_ | s, w'⟩ <;> rw [h] at hs
    · exact hR.trans hs (ht child w')
    · exact hs
  | _ => exact hR.steady ⟨rfl, rfl⟩

/-- A listener is labelled with what happens while it runs, if trips are. -/
theorem Listener.run_labelled (l : Listener) (w : World) : R w (l.events trip seen w) (l.run trip w).2 := by
  induction l generalizing w with
  | done => exact hR.refl w
  | panic p => exact hR.refl w
  | ask c next ih => exact hR.trans (c.run_labelled hR ht w) (ih _ _)
  | subscribe t l next ihl ihn =>
    have hs := hR.subscribe w t l
    simp only [Listener.events]
    rcases h : w.subscribe t (.call l) with ⟨_ | s, w'⟩ <;> rw [h] at hs
    · rw [Listener.run_subscribe_none next h]
      have hl := hR.trans hs (hR.invoke (ihl w'))
      exact hR.trans hl (ihn _ _)
    · simp only [Listener.run, h]
      exact hR.trans hs (ihn _ _)
  | register op l next ihl ihn =>
    have ha := hR.hook w op l
    simp only [Listener.events]
    rcases h : w.addHook op l with ⟨_ | _, w'⟩ <;> rw [h] at ha
    · rw [Listener.run_register_late next h]
      exact hR.trans ha (hR.trans (hR.invoke (ihl w')) (ihn _))
    · simp only [Listener.run, h]
      exact hR.trans ha (ihn _)

/-- A listener that is invoked is labelled as its run is: the record of a panic is nothing that happens. -/
theorem Listener.invoke_labelled (l : Listener) (w : World) : R w (l.events trip seen w) (l.invoke trip w) :=
  hR.invoke (l.run_labelled hR ht w)

/-- A reaction is labelled with what happens while it is carried out, if trips are. -/
theorem Reaction.run_labelled (r : Reaction) (w : World) : R w (r.events trip seen w) (r.run trip w) := by
  cases r with
  | call l => exact l.invoke_labelled hR ht w
  | forward child => exact ht child w
  | stop op => exact hR.stopped (fun l w => l.invoke_labelled hR ht w) op w

end

section

variable (hR : World.Labelled R)

include hR

namespace World

/-- A trip is labelled with what happens in the course of it. The induction is on its depth. -/
theorem trip_labelled (n : Nat) (t : TokenId) (w : World) : R w (tripEvents n t w) (trip n t w) := by
  induction n generalizing t w with
  | zero => exact hR.refl w
  | succ n ih =>
    simp only [tripEvents, trip]
    rcases h : w.trip? t with _ | ⟨reactions, w'⟩
    · exact hR.refl w
    · exact hR.trans (hR.tripped h) (hR.each (fun r w => r.run_labelled hR ih w) reactions w')

/-- Interrupting a token is labelled with what happens in the course of it. -/
theorem interrupt_labelled (t : TokenId) (w : World) : R w (interruptEvents t w) (w.interrupt t) := trip_labelled hR _ t w

/-- A reaction is registered, or carried out at once. -/
theorem react_labelled {w : World} {t : TokenId} {r : Reaction} (hs : R w [] (w.subscribe t r).2) :
    R w (w.reactEvents t r) (w.react t r).2 := by
  unfold react reactEvents
  rcases h : w.subscribe t r with ⟨_ | s, w'⟩ <;> rw [h] at hs
  · exact hR.trans hs (r.run_labelled hR (interrupt_labelled hR) w')
  · exact hs

/-- A hook of an action or a future joins those that wait, or runs at once. -/
theorem hook_labelled (w : World) (op : OperationId) (l : Listener) :
    ((w.addHook op l).1 = true → R w [.registered op l] (w.addHook op l).2) ∧
      ((w.addHook op l).1 = false →
        R w (.registered op l :: .invoked op l :: l.events interrupt interruptEvents (w.addHook op l).2)
          (l.invoke interrupt (w.addHook op l).2)) := by
  have ha := hR.hook w op l
  refine ⟨fun h => by rwa [h] at ha, fun h => ?_⟩
  rw [h] at ha
  exact hR.trans ha (l.invoke_labelled hR (interrupt_labelled hR) _)

end World

/-- An action is labelled with what happens while it is performed. -/
theorem Action.run_labelled {α : Type} (a : Action α) (w : World) : R w (a.events w) (a.run w).2 := by
  induction a generalizing w with
  | pure a => exact hR.refl w
  | panic p => exact hR.refl w
  | ask c next ih => exact hR.trans (c.run_labelled hR (World.interrupt_labelled hR) w) (ih _ _)
  | subscribe t l next ih => exact hR.trans (World.react_labelled hR (hR.subscribe w t l)) (ih _ _)
  | register op l next ih =>
    have ha := World.hook_labelled hR w op l
    simp only [Action.run, Action.events]
    rcases h : w.addHook op l with ⟨_ | _, w'⟩ <;> rw [h] at ha
    · exact hR.trans (ha.2 rfl) (ih _)
    · exact hR.trans (ha.1 rfl) (ih _)

/-- A future is labelled with what happens while it is polled. -/
theorem Future.poll_labelled (op : OperationId) (f : Future) (w : World) : R w (f.events op w) (f.poll op w).2 := by
  induction f generalizing w with
  | settle r => exact hR.refl w
  | panic p => exact hR.refl w
  | never => exact hR.refl w
  | ask c next ih => exact hR.trans (c.run_labelled hR (World.interrupt_labelled hR) w) (ih _ _)
  | subscribe t l next ih => exact hR.trans (World.react_labelled hR (hR.subscribe w t l)) (ih _ _)
  | register h l next ih =>
    have ha := World.hook_labelled hR w h l
    simp only [Future.poll, Future.events]
    rcases he : w.addHook h l with ⟨_ | _, w'⟩ <;> rw [he] at ha
    · exact hR.trans (ha.2 rfl) (ih _)
    · exact hR.trans (ha.1 rfl) (ih _)
  | sleep ms next ih =>
    simp only [Future.poll, Future.events]
    split
    · exact ih w
    · exact hR.steady (.startTimer w _ op)
  | sleepUntil t next ih =>
    simp only [Future.poll, Future.events]
    split
    · exact ih w
    · exact hR.refl w
  | yield n next ih =>
    cases n with
    | zero => exact ih w
    | succ n => exact hR.steady (.wakeCurrent w)
  | wait s next ih =>
    simp only [Future.poll, Future.events]
    split
    · exact ih w
    · exact hR.steady (.park w s op)

end

end Interruptible
