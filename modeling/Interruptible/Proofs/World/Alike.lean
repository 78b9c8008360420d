import Interruptible.Host.Perform

/-!
# Worlds that differ in the runtime's own notes

The records that the runtime writes and the tasks that it has made ready are of no consequence for what callbacks, listeners
and futures do. Two worlds are alike if they differ in nothing else (`World.Alike`); in worlds that are alike every action has
the same result and leaves worlds that are alike (`Action.run_alike`), and so has every poll of a future
(`Future.poll_alike`).
-/

namespace Interruptible

namespace World

/-- A world without records and without tasks that have been made ready. -/
def core (w : World) : World := { w with records := #[], ready := [], wokenMeanwhile := false }

/-- Two worlds that differ in their records and in which tasks are ready, and in nothing else. -/
def Alike (w v : World) : Prop := w.core = v.core

namespace Alike

theorem refl (w : World) : Alike w w := rfl

theorem symm {w v : World} (h : Alike w v) : Alike v w := Eq.symm h

theorem trans {w₁ w₂ w₃ : World} (h : Alike w₁ w₂) (h' : Alike w₂ w₃) : Alike w₁ w₃ := Eq.trans h h'

/-- A world that is alike is the same one with other notes. -/
theorem exists_eq {w v : World} (h : Alike w v) :
    ∃ records ready woken, v = { w with records := records, ready := ready, wokenMeanwhile := woken } := by
  refine ⟨v.records, v.ready, v.wokenMeanwhile, ?_⟩
  cases w
  cases v
  simp only [Alike, core, World.mk.injEq] at h
  simp only [World.mk.injEq]
  simp [h]

/-- Worlds that are alike have the same tokens. -/
theorem tokens {w v : World} (h : Alike w v) : v.tokens = w.tokens := by
  obtain ⟨_, _, _, rfl⟩ := h.exists_eq
  rfl

/-- Worlds that are alike have the same operations. -/
theorem operations {w v : World} (h : Alike w v) : v.operations = w.operations := by
  obtain ⟨_, _, _, rfl⟩ := h.exists_eq
  rfl

/-- Worlds that are alike have the same cells. -/
theorem cells {w v : World} (h : Alike w v) : v.cells = w.cells := by
  obtain ⟨_, _, _, rfl⟩ := h.exists_eq
  rfl

/-- The same tokens have been tripped in worlds that are alike. -/
theorem isInterrupted {w v : World} (h : Alike w v) (t : TokenId) : v.isInterrupted t = w.isInterrupted t := by
  rw [World.isInterrupted, World.isInterrupted, h.tokens]

/-- The same operations have fired in worlds that are alike. -/
theorem isFired {w v : World} (h : Alike w v) (op : OperationId) : v.isFired op = w.isFired op := by
  rw [World.isFired, World.isFired, h.operations]

/-! ## The notes themselves -/

/-- A record is a note of the runtime. -/
theorem of_record (w : World) (r : Record) : Alike w (w.record r) := rfl

/-- Which tasks are ready is a note of the runtime. -/
theorem of_wake (w : World) (t : TaskId) : Alike w (w.wake t) := by
  unfold wake
  split
  · rfl
  · split <;> rfl

/-- Whether the current task has been woken is a note of the runtime. -/
theorem of_wakeCurrent (w : World) : Alike w w.wakeCurrent := by
  unfold wakeCurrent
  split
  · exact of_wake w _
  · rfl

/-- Waking several tasks leaves a world alike. -/
theorem of_foldl_wake {β : Type} (f : β → TaskId) (xs : List β) (w : World) :
    Alike w (xs.foldl (fun w x => w.wake (f x)) w) := by
  induction xs generalizing w with
  | nil => rfl
  | cons x xs ih => exact (of_wake w (f x)).trans (ih _)

/-- Apart from notes, announcing a signal clears the line of those who wait for it. -/
theorem of_emit (w : World) (s : Signal) : Alike { w with waiters := w.waiters.filter (·.signal != s) } (w.emit s) :=
  of_foldl_wake Waiter.task _ _

/-- Waking the task that awaits an operation leaves a world alike. -/
theorem of_wakeOperation (w : World) (op : OperationId) : Alike w (w.wakeOperation op) := by
  unfold wakeOperation
  split
  · exact of_wake w _
  · rfl

end Alike

/-! ## What the operations of the world make of worlds that are alike -/

section

variable {w v : World}

/-- Something is recorded in worlds that are alike. -/
theorem record_alike (h : Alike w v) (r : Record) : Alike (w.record r) (v.record r) := h

/-- A signal is announced in worlds that are alike. -/
theorem emit_alike (h : Alike w v) (s : Signal) : Alike (w.emit s) (v.emit s) := by
  refine (Alike.of_emit w s).symm.trans (Alike.trans ?_ (Alike.of_emit v s))
  obtain ⟨_, _, _, rfl⟩ := h.exists_eq
  rfl

/-- The task that awaits an operation is woken in worlds that are alike. -/
theorem wakeOperation_alike (h : Alike w v) (op : OperationId) : Alike (w.wakeOperation op) (v.wakeOperation op) :=
  (Alike.of_wakeOperation w op).symm.trans (h.trans (Alike.of_wakeOperation v op))

/-- The current task is woken in worlds that are alike. -/
theorem wakeCurrent_alike (h : Alike w v) : Alike w.wakeCurrent v.wakeCurrent :=
  (Alike.of_wakeCurrent w).symm.trans (h.trans (Alike.of_wakeCurrent v))

/-- An operation waits for a signal in worlds that are alike. -/
theorem park_alike (h : Alike w v) (s : Signal) (op : OperationId) : Alike (w.park s op) (v.park s op) := by
  obtain ⟨_, _, _, rfl⟩ := h.exists_eq
  unfold park
  simp only
  split
  · rfl
  · split <;> rfl

/-- A timer is started in worlds that are alike. -/
theorem startTimer_alike (h : Alike w v) (deadline : Nat) (op : OperationId) :
    Alike (w.startTimer deadline op) (v.startTimer deadline op) := by
  obtain ⟨_, _, _, rfl⟩ := h.exists_eq
  unfold startTimer
  simp only
  split <;> rfl

/-- A subscription is dropped in worlds that are alike. -/
theorem unsubscribe_alike (h : Alike w v) (s : Subscription) : Alike (w.unsubscribe s) (v.unsubscribe s) := by
  obtain ⟨_, _, _, rfl⟩ := h.exists_eq
  rfl

/-- Worlds that are alike have the same name for a new operation. -/
theorem newOperation_alike (h : Alike w v) :
    w.newOperation.1 = v.newOperation.1 ∧ Alike w.newOperation.2 v.newOperation.2 := by
  obtain ⟨_, _, _, rfl⟩ := h.exists_eq
  exact ⟨rfl, rfl⟩

/-- Worlds that are alike have the same name for a new token. -/
theorem newToken_alike (h : Alike w v) : w.newToken.1 = v.newToken.1 ∧ Alike w.newToken.2 v.newToken.2 := by
  obtain ⟨_, _, _, rfl⟩ := h.exists_eq
  exact ⟨rfl, rfl⟩

/-- The interest in an operation is noted in worlds that are alike. -/
theorem attend_alike (h : Alike w v) (op : OperationId) : Alike (w.attend op) (v.attend op) := by
  obtain ⟨_, _, _, rfl⟩ := h.exists_eq
  rfl

/-- An operation is forgotten in worlds that are alike. -/
theorem forget_alike (h : Alike w v) (op : OperationId) : Alike (w.forget op) (v.forget op) := by
  obtain ⟨_, _, _, rfl⟩ := h.exists_eq
  rfl

/-- A gate is opened in worlds that are alike. -/
theorem openGate_alike (h : Alike w v) (gate : String) : Alike (w.openGate gate) (v.openGate gate) := by
  obtain ⟨_, _, _, rfl⟩ := h.exists_eq
  unfold openGate isOpen
  simp only
  split
  · rfl
  · exact emit_alike (by rfl) _

/-- Worlds that are alike take in a reaction under the same subscription, or both refuse it. -/
theorem subscribe_alike (h : Alike w v) (t : TokenId) (r : Reaction) :
    (w.subscribe t r).1 = (v.subscribe t r).1 ∧ Alike (w.subscribe t r).2 (v.subscribe t r).2 := by
  obtain ⟨_, _, _, rfl⟩ := h.exists_eq
  unfold subscribe
  simp only
  split
  · exact ⟨rfl, rfl⟩
  · split <;> exact ⟨rfl, rfl⟩

/-- Worlds that are alike both take in a hook, or both refuse it. -/
theorem addHook_alike (h : Alike w v) (op : OperationId) (l : Listener) :
    (w.addHook op l).1 = (v.addHook op l).1 ∧ Alike (w.addHook op l).2 (v.addHook op l).2 := by
  obtain ⟨_, _, _, rfl⟩ := h.exists_eq
  unfold addHook isFired
  simp only
  split <;> exact ⟨rfl, rfl⟩

/-- The same hooks are taken in worlds that are alike. -/
theorem takeHooks_alike (h : Alike w v) (op : OperationId) :
    (w.takeHooks op).1 = (v.takeHooks op).1 ∧ Alike (w.takeHooks op).2 (v.takeHooks op).2 := by
  obtain ⟨_, _, _, rfl⟩ := h.exists_eq
  exact ⟨rfl, rfl⟩

/-- A token trips in both worlds or in neither, and gives the same reactions. -/
theorem trip?_alike (h : Alike w v) (t : TokenId) :
    (w.trip? t = none ∧ v.trip? t = none) ∨
      ∃ reactions w' v', w.trip? t = some (reactions, w') ∧ v.trip? t = some (reactions, v') ∧ Alike w' v' := by
  obtain ⟨_, _, _, rfl⟩ := h.exists_eq
  unfold trip?
  simp only
  split
  · exact Or.inl ⟨rfl, rfl⟩
  · split
    · exact Or.inl ⟨rfl, rfl⟩
    · exact Or.inr ⟨_, _, _, rfl, rfl, record_alike (emit_alike (by rfl) _) _⟩

end

end World

/-! ## What callbacks make of worlds that are alike -/

/-- A way of tripping tokens to which the runtime's notes are of no consequence. -/
def Tripping.Blind (trip : Tripping) : Prop := ∀ t w v, World.Alike w v → World.Alike (trip t w) (trip t v)

/-- A command has the same answer in worlds that are alike. -/
theorem Command.run_alike {trip : Tripping} (ht : trip.Blind) {w v : World} (h : w.Alike v) (c : Command) :
    (c.run trip w).1 = (c.run trip v).1 ∧ (c.run trip w).2.Alike (c.run trip v).2 := by
  cases c with
  | interrupt t => exact ⟨rfl, ht t w v h⟩
  | openGate g => exact ⟨rfl, World.openGate_alike h g⟩
  | link parent child =>
    have hs := World.subscribe_alike h parent (.call (.interrupting child))
    simp only [Command.run]
    rcases hw : w.subscribe parent (.call (.interrupting child)) with ⟨_ | s, w'⟩ <;>
      rcases hv : v.subscribe parent (.call (.interrupting child)) with ⟨_ | s', v'⟩ <;> rw [hw, hv] at hs
    · exact ⟨rfl, ht child w' v' hs.2⟩
    · nomatch hs.1
    · nomatch hs.1
    · exact hs
  | _ =>
    obtain ⟨_, _, _, rfl⟩ := h.exists_eq
    exact ⟨rfl, rfl⟩

/-- A listener comes to the same end in worlds that are alike. -/
theorem Listener.run_alike {trip : Tripping} (ht : trip.Blind) (l : Listener) {w v : World} (h : w.Alike v) :
    (l.run trip w).1 = (l.run trip v).1 ∧ (l.run trip w).2.Alike (l.run trip v).2 := by
  induction l generalizing w v with
  | done => exact ⟨rfl, h⟩
  | panic p => exact ⟨rfl, h⟩
  | ask c next ih =>
    obtain ⟨hr, hw⟩ := Command.run_alike ht h c
    simp only [Listener.run, hr]
    exact ih _ hw
  | subscribe t l next ihl ihn =>
    have hs := World.subscribe_alike h t (.call l)
    simp only [Listener.run]
    rcases hw : w.subscribe t (.call l) with ⟨_ | s, w'⟩ <;>
      rcases hv : v.subscribe t (.call l) with ⟨_ | s', v'⟩ <;> rw [hw, hv] at hs
    · have hl := ihl hs.2
      simp only
      rcases hw' : l.run trip w' with ⟨_ | p, w''⟩ <;> rcases hv' : l.run trip v' with ⟨_ | p', v''⟩ <;>
        rw [hw', hv'] at hl
      · exact ihn _ hl.2
      · nomatch hl.1
      · nomatch hl.1
      · obtain rfl : p = p' := Option.some.inj hl.1
        exact ihn _ (World.record_alike hl.2 _)
    · nomatch hs.1
    · nomatch hs.1
    · obtain rfl : s = s' := Option.some.inj hs.1
      exact ihn _ hs.2
  | register op l next ihl ihn =>
    have ha := World.addHook_alike h op l
    simp only [Listener.run]
    rcases hw : w.addHook op l with ⟨_ | _, w'⟩ <;> rcases hv : v.addHook op l with ⟨_ | _, v'⟩ <;> rw [hw, hv] at ha
    · have hl := ihl ha.2
      simp only
      rcases hw' : l.run trip w' with ⟨_ | p, w''⟩ <;> rcases hv' : l.run trip v' with ⟨_ | p', v''⟩ <;>
        rw [hw', hv'] at hl
      · exact ihn hl.2
      · nomatch hl.1
      · nomatch hl.1
      · obtain rfl : p = p' := Option.some.inj hl.1
        exact ihn (World.record_alike hl.2 _)
    · nomatch ha.1
    · nomatch ha.1
    · exact ihn ha.2

/-- Its panic, if any, is recorded in both of them. -/
theorem Listener.invoke_alike {trip : Tripping} (ht : trip.Blind) (l : Listener) {w v : World} (h : w.Alike v) :
    (l.invoke trip w).Alike (l.invoke trip v) := by
  have hl := l.run_alike ht h
  unfold Listener.invoke
  rcases hw : l.run trip w with ⟨_ | p, w'⟩ <;> rcases hv : l.run trip v with ⟨_ | p', v'⟩ <;> rw [hw, hv] at hl
  · exact hl.2
  · nomatch hl.1
  · nomatch hl.1
  · obtain rfl : p = p' := Option.some.inj hl.1
    exact World.record_alike hl.2 _

/-- Several listeners are invoked one after the other in worlds that are alike. -/
theorem Listener.foldl_invoke_alike {trip : Tripping} (ht : trip.Blind) (ls : List Listener) {w v : World}
    (h : w.Alike v) : (ls.foldl (fun w l => l.invoke trip w) w).Alike (ls.foldl (fun w l => l.invoke trip w) v) := by
  induction ls generalizing w v with
  | nil => exact h
  | cons l ls ih => exact ih (l.invoke_alike ht h)

/-- A reaction is carried out in worlds that are alike. -/
theorem Reaction.run_alike {trip : Tripping} (ht : trip.Blind) (r : Reaction) {w v : World} (h : w.Alike v) :
    (r.run trip w).Alike (r.run trip v) := by
  cases r with
  | call l => exact l.invoke_alike ht h
  | forward child => exact ht child w v h
  | stop op =>
    obtain ⟨hr, hw⟩ := World.takeHooks_alike h op
    simp only [Reaction.run, hr]
    exact World.wakeOperation_alike (Listener.foldl_invoke_alike ht _ hw) op

/-- Several reactions are carried out one after the other in worlds that are alike. -/
theorem Reaction.foldl_run_alike {trip : Tripping} (ht : trip.Blind) (rs : List Reaction) {w v : World}
    (h : w.Alike v) : (rs.foldl (fun w r => r.run trip w) w).Alike (rs.foldl (fun w r => r.run trip w) v) := by
  induction rs generalizing w v with
  | nil => exact h
  | cons r rs ih => exact ih (r.run_alike ht h)

namespace World

/-- A token is tripped in worlds that are alike, however deep the trips lead. -/
theorem trip_alike (n : Nat) (t : TokenId) {w v : World} (h : w.Alike v) : (trip n t w).Alike (trip n t v) := by
  induction n generalizing t w v with
  | zero => exact h
  | succ n ih =>
    unfold trip
    rcases trip?_alike h t with ⟨hw, hv⟩ | ⟨reactions, w', v', hw, hv, h'⟩
    · rw [hw, hv]
      exact h
    · rw [hw, hv]
      exact Reaction.foldl_run_alike (fun t w v => ih t) reactions h'

/-- A token is tripped in worlds that are alike. -/
theorem interrupt_alike (t : TokenId) {w v : World} (h : w.Alike v) : (w.interrupt t).Alike (v.interrupt t) := by
  unfold interrupt
  rw [h.tokens]
  exact trip_alike _ t h

/-- Tripping a token is blind to the notes of the runtime. -/
theorem interrupt_blind : Tripping.Blind interrupt := fun t _ _ h => interrupt_alike t h

/-- Worlds that are alike take in a reaction under the same subscription, or carry it out at once. -/
theorem react_alike {w v : World} (h : w.Alike v) (t : TokenId) (r : Reaction) :
    (w.react t r).1 = (v.react t r).1 ∧ (w.react t r).2.Alike (v.react t r).2 := by
  have hs := subscribe_alike h t r
  unfold react
  rcases hw : w.subscribe t r with ⟨_ | s, w'⟩ <;> rcases hv : v.subscribe t r with ⟨_ | s', v'⟩ <;> rw [hw, hv] at hs
  · exact ⟨rfl, r.run_alike interrupt_blind hs.2⟩
  · nomatch hs.1
  · nomatch hs.1
  · exact hs

end World

/-- An action has the same result in worlds that are alike. -/
theorem Action.run_alike {α : Type} (a : Action α) {w v : World} (h : w.Alike v) :
    (a.run w).1 = (a.run v).1 ∧ (a.run w).2.Alike (a.run v).2 := by
  induction a generalizing w v with
  | pure a => exact ⟨rfl, h⟩
  | panic p => exact ⟨rfl, h⟩
  | ask c next ih =>
    obtain ⟨hr, hw⟩ := Command.run_alike World.interrupt_blind h c
    simp only [Action.run, hr]
    exact ih _ hw
  | subscribe t l next ih =>
    obtain ⟨hr, hw⟩ := World.react_alike h t (.call l)
    simp only [Action.run, hr]
    exact ih _ hw
  | register op l next ih =>
    have ha := World.addHook_alike h op l
    simp only [Action.run]
    rcases hw : w.addHook op l with ⟨_ | _, w'⟩ <;> rcases hv : v.addHook op l with ⟨_ | _, v'⟩ <;> rw [hw, hv] at ha
    · exact ih (l.invoke_alike World.interrupt_blind ha.2)
    · nomatch ha.1
    · nomatch ha.1
    · exact ih ha.2

/-- A poll of a future comes to the same in worlds that are alike. -/
theorem Future.poll_alike (op : OperationId) (f : Future) {w v : World} (h : w.Alike v) :
    (f.poll op w).1 = (f.poll op v).1 ∧ (f.poll op w).2.Alike (f.poll op v).2 := by
  induction f generalizing w v with
  | settle r => exact ⟨rfl, h⟩
  | panic p => exact ⟨rfl, h⟩
  | never => exact ⟨rfl, h⟩
  | ask c next ih =>
    obtain ⟨hr, hw⟩ := Command.run_alike World.interrupt_blind h c
    simp only [Future.poll, hr]
    exact ih _ hw
  | subscribe t l next ih =>
    obtain ⟨hr, hw⟩ := World.react_alike h t (.call l)
    simp only [Future.poll, hr]
    exact ih _ hw
  | register g l next ih =>
    have ha := World.addHook_alike h g l
    simp only [Future.poll]
    rcases hw : w.addHook g l with ⟨_ | _, w'⟩ <;> rcases hv : v.addHook g l with ⟨_ | _, v'⟩ <;> rw [hw, hv] at ha
    · exact ih (l.invoke_alike World.interrupt_blind ha.2)
    · nomatch ha.1
    · nomatch ha.1
    · exact ih ha.2
  | sleep ms next ih =>
    have hn : v.now = w.now := by
      obtain ⟨_, _, _, rfl⟩ := h.exists_eq
      rfl
    simp only [Future.poll, hn]
    split
    · exact ih h
    · exact ⟨rfl, World.startTimer_alike h _ op⟩
  | sleepUntil t next ih =>
    have hn : v.now = w.now := by
      obtain ⟨_, _, _, rfl⟩ := h.exists_eq
      rfl
    simp only [Future.poll, hn]
    split
    · exact ih h
    · exact ⟨rfl, h⟩
  | yield n next ih =>
    cases n with
    | zero => exact ih h
    | succ n => exact ⟨rfl, World.wakeCurrent_alike h⟩
  | wait s next ih =>
    have hh : v.hasHappened s = w.hasHappened s := by
      obtain ⟨_, _, _, rfl⟩ := h.exists_eq
      rfl
    simp only [Future.poll, hh]
    split
    · exact ih h
    · exact ⟨rfl, World.park_alike h s op⟩

end Interruptible
