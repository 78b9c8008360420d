import Interruptible.Host.Perform

/-!
# Listeners that panic

A listener that panics is at its end: what it has done so far stands, and the panic is noted in a record. Code that is mended
has no listener left that panics, neither among those that it registers nor among those that stand in the world already
(`Listener.mended`, `World.mended`). Apart from these records it makes no difference: whatever is done in a mended world leads
to the world that it leads to otherwise, mended (`World.interrupt_mended`, `Action.run_repaired`, `Future.poll_mended`). So a
panic in a listener keeps no other one from running.
-/

namespace Interruptible

/-! ## Mended code -/

/-- A listener without panics: where it would panic, it is done. -/
def Listener.mended : Listener → Listener
  | .done => .done
  | .panic _ => .done
  | .ask c next => .ask c fun r => (next r).mended
  | .subscribe t l next => .subscribe t l.mended fun r => (next r).mended
  | .register op l next => .register op l.mended next.mended

/-- A reaction without panics. -/
def Reaction.mended : Reaction → Reaction
  | .call l => .call l.mended
  | .forward child => .forward child
  | .stop op => .stop op

/-- A token of which no listener panics. -/
def Token.mended (x : Token) : Token := { x with entries := x.entries.map fun e => (e.1, e.2.mended) }

/-- An operation of which no hook panics. -/
def Operation.mended (x : Operation) : Operation := { x with hooks := x.hooks.map Listener.mended }

/-- Whether a record tells of something else than the panic of a listener. -/
def Record.isOther : Record → Bool
  | .listenerPanicked _ => false
  | _ => true

/-- A world in which no listener panics or has panicked. -/
def World.mended (w : World) : World :=
  { w with
    tokens := w.tokens.map Token.mended
    operations := w.operations.map Operation.mended
    records := w.records.filter Record.isOther }

/-- A callback whose listeners do not panic, and which does something else instead of panicking itself. What it results in may
be mended as well. -/
def Action.repaired {α : Type} (onPanic : Panic → Action α) (f : α → α) : Action α → Action α
  | .pure a => .pure (f a)
  | .panic p => onPanic p
  | .ask c next => .ask c fun r => (next r).repaired onPanic f
  | .subscribe t l next => .subscribe t l.mended fun r => (next r).repaired onPanic f
  | .register op l next => .register op l.mended (next.repaired onPanic f)

/-- A future whose listeners do not panic. -/
def Future.mended : Future → Future
  | .settle r => .settle r
  | .panic p => .panic p
  | .never => .never
  | .ask c next => .ask c fun r => (next r).mended
  | .subscribe t l next => .subscribe t l.mended fun r => (next r).mended
  | .register op l next => .register op l.mended next.mended
  | .sleep ms next => .sleep ms next.mended
  | .sleepUntil deadline next => .sleepUntil deadline next.mended
  | .yield times next => .yield times next.mended
  | .wait s next => .wait s next.mended

/-- What the poll of a mended future comes to. -/
def Poll.mended : Poll → Poll
  | .pending rest => .pending rest.mended
  | .settled r => .settled r
  | .panicked p => .panicked p

/-- A mended reaction is a listener just if the reaction is one. -/
theorem Reaction.isListener_mended (r : Reaction) : r.mended.isListener = r.isListener := by
  cases r <;> rfl

/-! ## Mended worlds -/

/-- A change to one element, seen through a function on the elements. -/
theorem map_modify {α β : Type} {f : α → α} {g : α → β} {f' : β → β} (h : ∀ x, g (f x) = f' (g x)) (xs : Array α) (i : Nat) :
    (xs.modify i f).map g = (xs.map g).modify i f' := by
  ext j h₁ h₂
  · simp
  · simp only [Array.getElem_map, Array.getElem_modify]
    split <;> simp [h]

namespace World

variable (w : World)

/-- No token is made or lost when a world is mended. -/
theorem size_mended : w.mended.tokens.size = w.tokens.size := Array.size_map

/-- Records that do not tell of the panic of a listener stay when a world is mended. -/
theorem record_mended {r : Record} (hr : r.isOther = true) : w.mended.record r = (w.record r).mended := by
  simp [record, mended, hr]

/-- The record of a panic of a listener is left out. -/
theorem record_panicked (p : Panic) : (w.record (.listenerPanicked p)).mended = w.mended := by
  simp [record, mended, Record.isOther]

/-- A task is woken in a mended world as it is otherwise. -/
theorem wake_mended (t : TaskId) : w.mended.wake t = (w.wake t).mended := by
  unfold wake
  have hc : w.mended.current = w.current := rfl
  have hr : w.mended.ready = w.ready := rfl
  rw [hc, hr]
  split
  · rfl
  · split <;> rfl

/-- The current task is woken in a mended world as it is otherwise. -/
theorem wakeCurrent_mended : w.mended.wakeCurrent = w.wakeCurrent.mended := by
  unfold wakeCurrent
  have hc : w.mended.current = w.current := rfl
  rw [hc]
  split
  · exact wake_mended w _
  · rfl

/-- Several tasks are woken in a mended world as they are otherwise. -/
theorem foldl_wake_mended {β : Type} (f : β → TaskId) (xs : List β) :
    xs.foldl (fun w x => w.wake (f x)) w.mended = (xs.foldl (fun w x => w.wake (f x)) w).mended := by
  induction xs generalizing w with
  | nil => rfl
  | cons x xs ih => rw [List.foldl_cons, List.foldl_cons, wake_mended, ih]

/-- A signal is announced in a mended world as it is otherwise. -/
theorem emit_mended (s : Signal) : w.mended.emit s = (w.emit s).mended :=
  foldl_wake_mended { w with waiters := w.waiters.filter (·.signal != s) } Waiter.task (w.waiters.filter (·.signal == s))

/-- An operation waits for a signal in a mended world as it does otherwise. -/
theorem park_mended (s : Signal) (op : OperationId) : w.mended.park s op = (w.park s op).mended := by
  unfold park
  have hc : w.mended.current = w.current := rfl
  have hw : w.mended.waiters = w.waiters := rfl
  rw [hc, hw]
  split
  · rfl
  · split <;> rfl

/-- A timer is started in a mended world as it is otherwise. -/
theorem startTimer_mended (deadline : Nat) (op : OperationId) :
    w.mended.startTimer deadline op = (w.startTimer deadline op).mended := by
  unfold startTimer
  have hc : w.mended.current = w.current := rfl
  rw [hc]
  split <;> rfl

/-- An operation is forgotten in a mended world as it is otherwise. -/
theorem forget_mended (op : OperationId) : w.mended.forget op = (w.forget op).mended := rfl

/-- A gate is opened in a mended world as it is otherwise. -/
theorem openGate_mended (gate : String) : w.mended.openGate gate = (w.openGate gate).mended := by
  unfold openGate
  have ho : w.mended.isOpen gate = w.isOpen gate := rfl
  rw [ho]
  split
  · rfl
  · exact emit_mended { w with openGates := gate :: w.openGates } _

/-! ## Tokens -/

/-- Whether a token has been tripped is the same in a mended world. -/
theorem isInterrupted_mended (t : TokenId) : w.mended.isInterrupted t = w.isInterrupted t := by
  simp only [isInterrupted, mended, Array.getElem?_map, Option.map_map]
  rfl

/-- A token is changed in a mended world as it is otherwise, if the change of a mended token is the mended change. -/
theorem modifyToken_mended {f f' : Token → Token} (h : ∀ x, (f x).mended = f' x.mended) (t : TokenId) :
    w.mended.modifyToken t f' = (w.modifyToken t f).mended := by
  simp only [modifyToken, mended, map_modify h]

/-- A token is made in a mended world as it is otherwise. -/
theorem newToken_mended : w.mended.newToken = (w.newToken.1, w.newToken.2.mended) := by
  simp [newToken, mended, Token.mended]

/-- A mended reaction is registered in a mended world under the key that the reaction would have. -/
theorem subscribe_mended (t : TokenId) (r : Reaction) :
    w.mended.subscribe t r.mended = ((w.subscribe t r).1, (w.subscribe t r).2.mended) := by
  unfold subscribe
  rw [show w.mended.tokens[t]? = w.tokens[t]?.map Token.mended by simp [mended]]
  cases w.tokens[t]? with
  | none => rfl
  | some token =>
    simp only [Option.map_some]
    rw [show token.mended.interrupted = token.interrupted from rfl]
    split
    · rfl
    · rw [← modifyToken_mended w (f := fun x => { x with nextKey := x.nextKey + 1, entries := x.entries ++ [(x.nextKey, r)] })]
      · rfl
      · simp [Token.mended]

/-- A subscription is dropped in a mended world as it is otherwise. -/
theorem unsubscribe_mended (s : Subscription) : w.mended.unsubscribe s = (w.unsubscribe s).mended :=
  modifyToken_mended w (fun x => by simp [Token.mended, List.filter_map, Function.comp_def]) s.token

/-- Code withdraws a listener in a mended world as it does otherwise. -/
theorem withdraw_mended (s : Subscription) : w.mended.withdraw s = (w.withdraw s).mended :=
  modifyToken_mended w
    (fun x => by simp [Token.mended, List.filter_map, Function.comp_def, Reaction.isListener_mended]) s.token

/-- A token trips in a mended world just if it does otherwise, and gives out its reactions, mended. -/
theorem trip?_mended (t : TokenId) :
    w.mended.trip? t = (w.trip? t).map fun x => (x.1.map Reaction.mended, x.2.mended) := by
  unfold trip?
  rw [show w.mended.tokens[t]? = w.tokens[t]?.map Token.mended by simp [mended]]
  cases w.tokens[t]? with
  | none => rfl
  | some token =>
    simp only [Option.map_some]
    rw [show token.mended.interrupted = token.interrupted from rfl]
    split
    · rfl
    · have hlatch : ∀ x : Token, ({ x with interrupted := true, entries := [] } : Token).mended =
          { x.mended with interrupted := true, entries := [] } := fun _ => rfl
      have hreactions : token.mended.entries.map (·.2) = (token.entries.map (·.2)).map Reaction.mended := by
        simp [Token.mended, Function.comp_def]
      rw [modifyToken_mended w hlatch, emit_mended, hreactions, List.length_map, record_mended _ rfl]
      rfl

/-! ## Operations -/

/-- Whether an operation has fired is the same in a mended world. -/
theorem isFired_mended (op : OperationId) : w.mended.isFired op = w.isFired op := by
  simp only [isFired, mended, Array.getElem?_map, Option.map_map]
  rfl

/-- An operation is changed in a mended world as it is otherwise, if the change of a mended operation is the mended change. -/
theorem modifyOperation_mended {f f' : Operation → Operation} (h : ∀ x, (f x).mended = f' x.mended) (op : OperationId) :
    w.mended.modifyOperation op f' = (w.modifyOperation op f).mended := by
  simp only [modifyOperation, mended, map_modify h]

/-- An operation begins in a mended world as it does otherwise. -/
theorem newOperation_mended : w.mended.newOperation = (w.newOperation.1, w.newOperation.2.mended) := by
  simp [newOperation, mended, Operation.mended]

/-- A mended hook is added in a mended world just if the hook would be. -/
theorem addHook_mended (op : OperationId) (l : Listener) :
    w.mended.addHook op l.mended = ((w.addHook op l).1, (w.addHook op l).2.mended) := by
  have hhooks : ∀ x : Operation, ({ x with hooks := x.hooks ++ [l] } : Operation).mended =
      { x.mended with hooks := x.mended.hooks ++ [l.mended] } := fun x => by simp [Operation.mended]
  unfold addHook
  rw [isFired_mended]
  split
  · rfl
  · rw [modifyOperation_mended w hhooks]

/-- The hooks that are taken in a mended world are those that would be taken otherwise, mended. -/
theorem takeHooks_mended (op : OperationId) :
    w.mended.takeHooks op = ((w.takeHooks op).1.map Listener.mended, (w.takeHooks op).2.mended) := by
  have hfired : ∀ x : Operation, ({ x with fired := true, hooks := [] } : Operation).mended =
      { x.mended with fired := true, hooks := [] } := fun _ => rfl
  unfold takeHooks
  dsimp only
  rw [modifyOperation_mended w hfired]
  refine Prod.ext ?_ rfl
  simp only [mended, Array.getElem?_map, Option.map_map]
  cases w.operations[op]? <;> rfl

/-- The interest of the current task in an operation is noted in a mended world as it is otherwise. -/
theorem attend_mended (op : OperationId) : w.mended.attend op = (w.attend op).mended :=
  modifyOperation_mended w (f := fun x => { x with task := w.current }) (fun _ => rfl) op

/-- The task that awaits an operation is woken in a mended world as it is otherwise. -/
theorem wakeOperation_mended (op : OperationId) : w.mended.wakeOperation op = (w.wakeOperation op).mended := by
  unfold wakeOperation
  rw [show w.mended.operations[op]? = w.operations[op]?.map Operation.mended by simp [mended]]
  rcases w.operations[op]? with _ | ⟨fired, hooks, _ | t⟩
  · rfl
  · rfl
  · exact wake_mended w t

end World

/-! ## What code does in mended worlds -/

/-- A way of tripping tokens that does the same in a mended world. -/
def Tripping.Mends (trip : Tripping) : Prop := ∀ t w, trip t w.mended = (trip t w).mended

section

variable {trip : Tripping} (ht : trip.Mends)

include ht

/-- A command is answered in a mended world as it is otherwise. -/
theorem Command.run_mended (c : Command) (w : World) :
    c.run trip w.mended = ((c.run trip w).1, (c.run trip w).2.mended) := by
  cases c with
  | openGate g => exact Prod.ext rfl (w.openGate_mended g)
  | interrupt t => exact Prod.ext rfl (ht t w)
  | isInterrupted t => exact Prod.ext (w.isInterrupted_mended t) rfl
  | link parent child =>
    have hs := w.subscribe_mended parent (.call (.interrupting child))
    rw [show (Reaction.call (.interrupting child)).mended = .call (.interrupting child) from rfl] at hs
    simp only [Command.run, hs]
    rcases w.subscribe parent (.call (.interrupting child)) with ⟨_ | s, v⟩
    · exact Prod.ext rfl (ht child v)
    · rfl
  | unsubscribe s => exact Prod.ext rfl (w.withdraw_mended s)
  | isFired op => exact Prod.ext (w.isFired_mended op) rfl
  | _ => rfl

/-- A mended listener does what the listener does, and never panics. -/
theorem Listener.run_mended (l : Listener) (w : World) : l.mended.run trip w.mended = (none, (l.run trip w).2.mended) := by
  induction l generalizing w with
  | done => rfl
  | panic p => rfl
  | ask c next ih =>
    simp only [Listener.mended, Listener.run, c.run_mended ht]
    exact ih _ _
  | subscribe t l next ihl ihn =>
    have hs := w.subscribe_mended t (.call l)
    rw [Reaction.mended] at hs
    simp only [Listener.mended, Listener.run, hs]
    rcases w.subscribe t (.call l) with ⟨_ | s, v⟩
    · simp only [ihl]
      rcases l.run trip v with ⟨_ | p, u⟩
      · exact ihn _ _
      · rw [← u.record_panicked p]
        exact ihn _ _
    · exact ihn _ _
  | register op l next ihl ihn =>
    have hs := w.addHook_mended op l
    simp only [Listener.mended, Listener.run, hs]
    rcases w.addHook op l with ⟨_ | _, v⟩
    · simp only [ihl]
      rcases l.run trip v with ⟨_ | p, u⟩
      · exact ihn _
      · rw [← u.record_panicked p]
        exact ihn _
    · exact ihn _

/-- A mended listener leads from a mended world to the mended one that the listener leads to: where the listener panics, that is
recorded, and the record is left out. -/
theorem Listener.invoke_mended (l : Listener) (w : World) : l.mended.invoke trip w.mended = (l.invoke trip w).mended := by
  unfold Listener.invoke
  rw [l.run_mended ht]
  rcases l.run trip w with ⟨_ | p, u⟩
  · rfl
  · exact (u.record_panicked p).symm

/-- So do several listeners, one after the other: none of them is kept from running by a panic of another one. -/
theorem Listener.foldl_invoke_mended (ls : List Listener) (w : World) :
    (ls.map Listener.mended).foldl (fun w l => l.invoke trip w) w.mended = (ls.foldl (fun w l => l.invoke trip w) w).mended := by
  induction ls generalizing w with
  | nil => rfl
  | cons l ls ih => rw [List.map_cons, List.foldl_cons, List.foldl_cons, l.invoke_mended ht, ih]

/-- A mended reaction leads from a mended world to the mended one that the reaction leads to. -/
theorem Reaction.run_mended (r : Reaction) (w : World) : r.mended.run trip w.mended = (r.run trip w).mended := by
  cases r with
  | call l => exact l.invoke_mended ht w
  | forward child => exact ht child w
  | stop op =>
    simp only [Reaction.mended, Reaction.run, w.takeHooks_mended op]
    rw [Listener.foldl_invoke_mended ht, World.wakeOperation_mended]

/-- So do several reactions, one after the other. -/
theorem Reaction.foldl_run_mended (rs : List Reaction) (w : World) :
    (rs.map Reaction.mended).foldl (fun w r => r.run trip w) w.mended = (rs.foldl (fun w r => r.run trip w) w).mended := by
  induction rs generalizing w with
  | nil => rfl
  | cons r rs ih => rw [List.map_cons, List.foldl_cons, List.foldl_cons, r.run_mended ht, ih]

end

namespace World

/-- Tripping a token goes together with mending the world, however deep the trips lead. -/
theorem trip_mended (n : Nat) : Tripping.Mends fun t w => trip n t w := by
  induction n with
  | zero => exact fun _ _ => rfl
  | succ n ih =>
    intro t w
    simp only [trip, trip?_mended]
    rcases w.trip? t with _ | ⟨rs, v⟩
    · rfl
    · exact Reaction.foldl_run_mended ih rs v

/-- The trip of a token: all its listeners run, whether or not some of them panic. -/
theorem interrupt_mended : Tripping.Mends interrupt := fun t w => by
  unfold interrupt
  rw [size_mended]
  exact trip_mended _ t w

/-- A mended reaction that is handed to a token is registered or runs at once, as the reaction would. -/
theorem react_mended (w : World) (t : TokenId) (r : Reaction) :
    w.mended.react t r.mended = ((w.react t r).1, (w.react t r).2.mended) := by
  unfold react
  rw [subscribe_mended]
  rcases w.subscribe t r with ⟨_ | s, v⟩
  · exact Prod.ext rfl (r.run_mended interrupt_mended v)
  · rfl

end World

/-- A repaired callback does what the callback does, up to the point where that panics. -/
theorem Action.run_repaired {α : Type} (onPanic : Panic → Action α) (f : α → α) (a : Action α) (w : World) :
    (a.repaired onPanic f).run w.mended =
      match a.run w with
      | (.ok x, v) => (.ok (f x), v.mended)
      | (.error p, v) => (onPanic p).run v.mended := by
  induction a generalizing w with
  | pure x => rfl
  | panic p => rfl
  | ask c next ih =>
    simp only [Action.repaired, Action.run, c.run_mended World.interrupt_mended]
    exact ih _ _
  | subscribe t l next ih =>
    have hs := w.react_mended t (.call l)
    rw [Reaction.mended] at hs
    simp only [Action.repaired, Action.run, hs]
    exact ih _ _
  | register op l next ih =>
    simp only [Action.repaired, Action.run, w.addHook_mended op l]
    rcases w.addHook op l with ⟨_ | _, v⟩
    · simp only [l.invoke_mended World.interrupt_mended]
      exact ih _
    · exact ih _

/-- The poll of a mended future. -/
theorem Future.poll_mended (op : OperationId) (f : Future) (w : World) :
    f.mended.poll op w.mended = ((f.poll op w).1.mended, (f.poll op w).2.mended) := by
  induction f generalizing w with
  | settle r => rfl
  | panic p => rfl
  | never => rfl
  | ask c next ih =>
    simp only [Future.mended, Future.poll, c.run_mended World.interrupt_mended]
    exact ih _ _
  | subscribe t l next ih =>
    have hs := w.react_mended t (.call l)
    rw [Reaction.mended] at hs
    simp only [Future.mended, Future.poll, hs]
    exact ih _ _
  | register h l next ih =>
    simp only [Future.mended, Future.poll, w.addHook_mended h l]
    rcases w.addHook h l with ⟨_ | _, v⟩
    · simp only [l.invoke_mended World.interrupt_mended]
      exact ih _
    · exact ih _
  | sleep ms next ih =>
    simp only [Future.mended, Future.poll]
    split
    · exact ih w
    · exact Prod.ext rfl (w.startTimer_mended _ op)
  | sleepUntil deadline next ih =>
    simp only [Future.mended, Future.poll]
    rw [show w.mended.now = w.now from rfl]
    split
    · exact ih w
    · rfl
  | yield n next ih =>
    cases n with
    | zero => exact ih w
    | succ n => exact Prod.ext rfl w.wakeCurrent_mended
  | wait s next ih =>
    have hh : w.mended.hasHappened s = w.hasHappened s := by
      cases s with
      | token t => exact w.isInterrupted_mended t
      | _ => rfl
    simp only [Future.mended, Future.poll, hh]
    split
    · exact ih w
    · exact Prod.ext rfl (w.park_mended s op)

end Interruptible
