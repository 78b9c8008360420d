import Interruptible.Host.Perform

/-!
# What code can do to the world

Commands, listeners, actions and futures change the world by a handful of operations. A relation between the world before and
the world after that each of these operations obeys (`World.Obeyed`) is obeyed by all code, provided that the tripping of a token
obeys it: by commands and listeners (`Command.run_obeys`, `Listener.invoke_obeys`), by actions (`Action.run_obeys`), and by
polls of futures, if it also allows for what waiting does (`Future.poll_obeys`). One that holds whoever waits and for what is
`World.Respected`.
-/

namespace Interruptible

/-- A relation between an earlier and a later world that the operations respect which actions are made of. Tripping a token is
not among them. -/
structure World.Obeyed (R : World → World → Prop) : Prop where
  refl : ∀ w, R w w
  trans : ∀ w₁ w₂ w₃, R w₁ w₂ → R w₂ w₃ → R w₁ w₃
  /-- The log, counters, cells and names are changed. -/
  kept : ∀ (w : World) log counters cells names,
    R w { w with log := log, counters := counters, cells := cells, names := names }
  record : ∀ w r, R w (w.record r)
  openGate : ∀ w g, R w (w.openGate g)
  subscribe : ∀ w t l, R w (w.subscribe t (.call l)).2
  withdraw : ∀ w s, R w (w.withdraw s)
  addHook : ∀ w op l, R w (w.addHook op l).2

/-- A relation between an earlier and a later world that the operations respect which code is made of, that of futures
included. -/
structure World.Respected (R : World → World → Prop) : Prop where
  refl : ∀ w, R w w
  trans : ∀ w₁ w₂ w₃, R w₁ w₂ → R w₂ w₃ → R w₁ w₃
  /-- The log, counters, cells and names are changed. -/
  kept : ∀ (w : World) log counters cells names,
    R w { w with log := log, counters := counters, cells := cells, names := names }
  record : ∀ w r, R w (w.record r)
  openGate : ∀ w g, R w (w.openGate g)
  subscribe : ∀ w t l, R w (w.subscribe t (.call l)).2
  withdraw : ∀ w s, R w (w.withdraw s)
  addHook : ∀ w op l, R w (w.addHook op l).2
  /-- A future waits. -/
  park : ∀ w s op, R w (w.park s op)
  startTimer : ∀ w deadline op, R w (w.startTimer deadline op)
  wakeCurrent : ∀ w, R w w.wakeCurrent

variable {R : World → World → Prop}

/-- A relation that the operations respect is respected by those that code can reach. -/
theorem World.Respected.obeyed (hR : World.Respected R) : World.Obeyed R where
  refl := hR.refl
  trans := hR.trans
  kept := hR.kept
  record := hR.record
  openGate := hR.openGate
  subscribe := hR.subscribe
  withdraw := hR.withdraw
  addHook := hR.addHook

/-! ## Commands and listeners -/

/-- A listener that is registered too late runs, and the one that has registered it goes on. -/
theorem Listener.run_subscribe_none {trip : Tripping} {t : TokenId} {l : Listener} {w w' : World}
    (next : Option Subscription → Listener) (h : w.subscribe t (.call l) = (none, w')) :
    (Listener.subscribe t l next).run trip w = (next none).run trip (l.invoke trip w') := by
  simp only [Listener.run, Listener.invoke, h]
  split <;> rfl

/-- A hook that is registered too late runs, and the listener that has registered it goes on. -/
theorem Listener.run_register_late {trip : Tripping} {op : OperationId} {l : Listener} {w w' : World}
    (next : Listener) (h : w.addHook op l = (false, w')) :
    (Listener.register op l next).run trip w = next.run trip (l.invoke trip w') := by
  simp only [Listener.run, Listener.invoke, h]
  split <;> rfl

section

variable {trip : Tripping} (hR : World.Obeyed R) (ht : ∀ t w, R w (trip t w))

include hR ht

/-- Commands respect such a relation, if trips do. -/
theorem Command.run_obeys (w : World) (c : Command) : R w (c.run trip w).2 := by
  cases c with
  | interrupt t => exact ht t w
  | openGate g => exact hR.openGate w g
  | unsubscribe s => exact hR.withdraw w s
  | link parent child =>
    have hs := hR.subscribe w parent (.interrupting child)
    simp only [Command.run]
    split
    · rename_i s w' h
      rwa [h] at hs
    · rename_i w' h
      rw [h] at hs
      exact hR.trans _ _ _ hs (ht child w')
  | log v => exact hR.kept w _ _ _ _
  | bump name => exact hR.kept w _ _ _ _
  | newCell => exact hR.kept w _ _ _ _
  | fill c p => exact hR.kept w _ _ _ _
  | take c => exact hR.kept w _ _ _ _
  | keepHooks name op => exact hR.kept w _ _ _ _
  | keepSubscription name s => exact hR.kept w _ _ _ _
  | takeSubscription name => exact hR.kept w _ _ _ _
  | _ => exact hR.refl w

/-- Listeners respect such a relation, if trips do. The induction is on the listener. -/
theorem Listener.run_obeys (l : Listener) (w : World) : R w (l.run trip w).2 := by
  induction l generalizing w with
  | done => exact hR.refl w
  | panic p => exact hR.refl w
  | ask c next ih => exact hR.trans _ _ _ (Command.run_obeys hR ht w c) (ih _ _)
  | subscribe t l next ihl ihn =>
    have hs := hR.subscribe w t l
    simp only [Listener.run]
    split
    · rename_i s w' h
      rw [h] at hs
      exact hR.trans _ _ _ hs (ihn _ _)
    · rename_i w' h
      rw [h] at hs
      have hl := ihl w'
      split
      · rename_i w'' h'
        rw [h'] at hl
        exact hR.trans _ _ _ (hR.trans _ _ _ hs hl) (ihn _ _)
      · rename_i p w'' h'
        rw [h'] at hl
        exact hR.trans _ _ _ (hR.trans _ _ _ hs (hR.trans _ _ _ hl (hR.record _ _))) (ihn _ _)
  | register op l next ihl ihn =>
    have ha := hR.addHook w op l
    simp only [Listener.run]
    split
    · rename_i w' h
      rw [h] at ha
      exact hR.trans _ _ _ ha (ihn _)
    · rename_i w' h
      rw [h] at ha
      have hl := ihl w'
      split
      · rename_i w'' h'
        rw [h'] at hl
        exact hR.trans _ _ _ (hR.trans _ _ _ ha hl) (ihn _)
      · rename_i p w'' h'
        rw [h'] at hl
        exact hR.trans _ _ _ (hR.trans _ _ _ ha (hR.trans _ _ _ hl (hR.record _ _))) (ihn _)

/-- Listeners that are invoked respect such a relation: a panic leaves a record. -/
theorem Listener.invoke_obeys (l : Listener) (w : World) : R w (l.invoke trip w) := by
  have hl := l.run_obeys hR ht w
  unfold Listener.invoke
  split
  · rename_i w' h
    rwa [h] at hl
  · rename_i p w' h
    rw [h] at hl
    exact hR.trans _ _ _ hl (hR.record _ _)

/-- Listeners that are invoked one after the other respect such a relation. -/
theorem Listener.foldl_invoke_obeys (ls : List Listener) (w : World) :
    R w (ls.foldl (fun w l => l.invoke trip w) w) := by
  induction ls generalizing w with
  | nil => exact hR.refl w
  | cons l ls ih => exact hR.trans _ _ _ (l.invoke_obeys hR ht w) (ih _)

end

/-! ## Actions and futures -/

section

variable (hR : World.Obeyed R) (ht : ∀ t w, R w (w.interrupt t))

include hR ht

/-- Subscribing to a token respects such a relation, also when the listener is invoked at once. -/
theorem World.react_obeys (w : World) (t : TokenId) (l : Listener) : R w (w.react t (.call l)).2 := by
  have hs := hR.subscribe w t l
  unfold World.react
  split
  · rename_i s w' h
    rwa [h] at hs
  · rename_i w' h
    rw [h] at hs
    exact hR.trans _ _ _ hs (l.invoke_obeys hR ht w')

/-- A hook is registered, or runs at once. -/
theorem World.hook_obeys (w : World) (op : OperationId) (l : Listener) {w' : World} {b : Bool}
    (h : w.addHook op l = (b, w')) : R w w' ∧ R w (l.invoke World.interrupt w') := by
  have ha := hR.addHook w op l
  rw [h] at ha
  exact ⟨ha, hR.trans _ _ _ ha (l.invoke_obeys hR ht w')⟩

/-- Actions respect such a relation, if trips do. The induction is on the action. -/
theorem Action.run_obeys {α : Type} (a : Action α) (w : World) : R w (a.run w).2 := by
  induction a generalizing w with
  | pure a => exact hR.refl w
  | panic p => exact hR.refl w
  | ask c next ih => exact hR.trans _ _ _ (Command.run_obeys hR ht w c) (ih _ _)
  | subscribe t l next ih => exact hR.trans _ _ _ (World.react_obeys hR ht w t l) (ih _ _)
  | register op l next ih =>
    simp only [Action.run]
    split
    · rename_i w' h
      exact hR.trans _ _ _ (World.hook_obeys hR ht w op l h).1 (ih _)
    · rename_i w' h
      exact hR.trans _ _ _ (World.hook_obeys hR ht w op l h).2 (ih _)

/-- Futures respect such a relation when they are polled, if it allows for what is done on behalf of their operation. The
induction is on the future. -/
theorem Future.poll_obeys {op : OperationId} (hpark : ∀ w s, R w (w.park s op)) (htimer : ∀ w deadline, R w (w.startTimer deadline op))
    (hwake : ∀ w, R w w.wakeCurrent) (f : Future) (w : World) : R w (f.poll op w).2 := by
  induction f generalizing w with
  | settle r => exact hR.refl w
  | panic p => exact hR.refl w
  | never => exact hR.refl w
  | ask c next ih => exact hR.trans _ _ _ (Command.run_obeys hR ht w c) (ih _ _)
  | subscribe t l next ih => exact hR.trans _ _ _ (World.react_obeys hR ht w t l) (ih _ _)
  | register h l next ih =>
    simp only [Future.poll]
    split
    · rename_i w' he
      exact hR.trans _ _ _ (World.hook_obeys hR ht w h l he).1 (ih _)
    · rename_i w' he
      exact hR.trans _ _ _ (World.hook_obeys hR ht w h l he).2 (ih _)
  | sleep ms next ih =>
    simp only [Future.poll]
    split
    · exact ih w
    · exact htimer w _
  | sleepUntil t next ih =>
    simp only [Future.poll]
    split
    · exact ih w
    · exact hR.refl w
  | yield n next ih =>
    cases n with
    | zero => exact ih w
    | succ n => exact hwake w
  | wait s next ih =>
    simp only [Future.poll]
    split
    · exact ih w
    · exact hpark w s

end

/-! ## Relations that futures respect -/

section

variable (hR : World.Respected R)

include hR

/-- Listeners that are invoked respect every relation that all operations respect. -/
theorem Listener.invoke_respects {trip : Tripping} (ht : ∀ t w, R w (trip t w)) (l : Listener) (w : World) :
    R w (l.invoke trip w) := l.invoke_obeys hR.obeyed ht w

/-- Listeners that are invoked one after the other respect every relation that all operations respect. -/
theorem Listener.foldl_invoke_respects {trip : Tripping} (ht : ∀ t w, R w (trip t w)) (ls : List Listener) (w : World) :
    R w (ls.foldl (fun w l => l.invoke trip w) w) := Listener.foldl_invoke_obeys hR.obeyed ht ls w

variable (ht : ∀ t w, R w (w.interrupt t))

include ht

/-- Actions respect every relation that all operations respect. -/
theorem Action.run_respects {α : Type} (a : Action α) (w : World) : R w (a.run w).2 := a.run_obeys hR.obeyed ht w

/-- Futures respect every relation that all operations respect, whatever operation they are polled for. -/
theorem Future.poll_respects (op : OperationId) (f : Future) (w : World) : R w (f.poll op w).2 :=
  f.poll_obeys hR.obeyed ht (fun w s => hR.park w s op) (fun w deadline => hR.startTimer w deadline op) hR.wakeCurrent w

end

end Interruptible
