import Interruptible.Proofs.Machine.Surroundings

/-!
# Host operations

An interpreter starts a host operation, polls its future until that settles or the token trips, and goes on. This module
follows one operation from its start through all of its polls, with whatever else goes on before, in between and afterwards
(`Process.Course`), and says what becomes of it (`host_operation_adapts`).

The factory is called once, unless the token had been tripped. A poll of the interpreter asks the future if and only if the
token has not been tripped by then, and what the future comes to is what the interpreter goes on with. The hooks are invoked
once each if the token trips while the operation is awaited, and not at all otherwise, whatever the token does afterwards. A
hook that is handed over when the trip has come to the operation is invoked at once; one that an earlier listener of the token
hands over in the course of the trip has to wait until the trip comes to the operation (`hook_held_back`).
-/

namespace Interruptible

/-! ## The course of an operation -/

/-- What happens when an interpreter starts an operation. -/
def Interpreter.awaitEvents (m : Interpreter) (factory : OperationId → Action Future) (w : World) : List HostEvent :=
  let (op, w) := w.newOperation
  match w.react m.token (.stop op) with
  | (none, _) => w.reactEvents m.token (.stop op) ++ [.resolved op]
  | (some _, w) =>
    .called op :: ((factory op).events w ++
      match ((factory op).run w).1 with
      | .ok _ => []
      | .error _ => [.resolved op])

/-- What happens when an interpreter looks after an operation. When the future is rejected, the operation is over before the
rejection is turned into a cause. -/
def Awaited.events (a : Awaited) (w : World) : List HostEvent :=
  if w.isFired a.op then [.resolved a.op]
  else
    .polled a.op :: (a.future.events a.op (w.attend a.op) ++
      match a.future.poll a.op (w.attend a.op) with
      | (.pending _, _) => []
      | (.settled (.error x), w) =>
        .resolved a.op :: (do return .fail (← a.onReject x) : Action Node).events ((w.unsubscribe a.stopper).forget a.op)
      | _ => [.resolved a.op])

/-- The course of an operation of an interpreter: the turns in which it looks after the operation, and what happens all along.
In between, and when the operation is over, everybody else is at work. -/
inductive Process.Course (m : Interpreter) (op : OperationId) :
    Process → World → List (Awaited × World) → List HostEvent → Process → World → Prop where
  | done (p : Process) (w : World) : Course m op p w [] [] p w
  | poll {a : Awaited} {w v : World} {polls : List (Awaited × World)} {es : List HostEvent} {q : Process}
      (course : Course m op (Process.turn (.awaiting m a) w).process (Process.turn (.awaiting m a) w).world polls es q v) :
      Course m op (.awaiting m a) w ((a, w) :: polls) (a.events w ++ es) q v
  | meanwhile {p q : Process} {w w' v : World} {polls : List (Awaited × World)} {es es' : List HostEvent}
      (hm : w.Meanwhile op es w') (course : Course m op p w' polls es' q v) : Course m op p w polls (es ++ es') q v

/-- How an interpreter goes on with what a poll of the future that it awaits has come to. -/
def Interpreter.goesOn (m : Interpreter) (a : Awaited) : Poll × World → Process
  | (.pending rest, _) => .awaiting m { a with future := rest }
  | (.settled (.ok p), _) => .next m (.succeed p)
  | (.settled (.error x), w) =>
    .next m (guarded (do return .fail (← a.onReject x)) ((w.unsubscribe a.stopper).forget a.op)).1
  | (.panicked p, _) => .next m (.die p.defect)

/-! ## What becomes of it -/

namespace HostEvent

/-- Whether the factory of an operation is called. -/
def isCall (op : OperationId) : HostEvent → Bool
  | .called o => o == op
  | _ => false

/-- A token trips while an operation is awaited. -/
def TripsDuring (t : TokenId) (op : OperationId) (es : List HostEvent) : Prop :=
  ∃ i, es[i]? = some (.tripped t) ∧ .resolved op ∉ es.take i

/-- What becomes of the hooks of an operation that is awaited under a token. -/
structure HooksServed (t : TokenId) (op : OperationId) (es : List HostEvent) : Prop where
  /-- A trip comes to the operation if and only if the token trips while the operation is awaited. -/
  stopped : .stopped op ∈ es ↔ TripsDuring t op es
  /-- Then each hook is invoked once. -/
  once : TripsDuring t op es → (es.filterMap (·.registered? op)).Perm (es.filterMap (·.invoked? op))
  /-- Otherwise no hook is invoked. -/
  never : ¬ TripsDuring t op es → es.filterMap (·.invoked? op) = []
  /-- No hook is invoked before the trip has come to the operation. -/
  order : ∀ i l, es[i]? = some (.invoked op l) → .stopped op ∈ es.take i
  /-- Once the trip has come to the operation, a hook is invoked when it is handed over. -/
  prompt : ∀ i l, es[i]? = some (.registered op l) → .stopped op ∈ es.take i → es[i + 1]? = some (.invoked op l)

end HostEvent

/-- What becomes of an operation that an interpreter starts in a world, if the interpreter looks after it in certain turns and
certain things happen all along. -/
structure Interpreter.Adapts (m : Interpreter) (factory : OperationId → Action Future) (onReject : Value → Action (Cause Value))
    (w : World) (polls : List (Awaited × World)) (es : List HostEvent) : Prop where
  /-- The factory is called once if the token has not been tripped, and never otherwise. -/
  called : es.countP (·.isCall w.newOperation.1) = if w.isInterrupted m.token then 0 else 1
  /-- If the token has been tripped the interpreter is interrupted, and there is no future to look after. -/
  skipped : w.isInterrupted m.token = true → (m.await factory onReject w).process = .popping m .interruption ∧ polls = []
  /-- Otherwise the interpreter awaits the future that the factory gives; a panic of the factory is a defect. -/
  started : w.isInterrupted m.token = false → ∃ stopper v,
    w.newOperation.2.react m.token (.stop w.newOperation.1) = (some stopper, v) ∧
      (m.await factory onReject w).process =
        match ((factory w.newOperation.1).run v).1 with
        | .ok future => .awaiting m { op := w.newOperation.1, stopper, future, onReject }
        | .error p => .next m (.die p.defect)
  /-- The turns are about this operation. -/
  own : ∀ x ∈ polls, x.1.op = w.newOperation.1 ∧ x.1.onReject = onReject
  /-- A turn interrupts the interpreter if the token has been tripped before it, and lets the future alone. -/
  interrupted : ∀ x ∈ polls, x.2.isInterrupted m.token = true →
    Process.turn (.awaiting m x.1) x.2 = m.interrupted ((x.2.unsubscribe x.1.stopper).forget x.1.op)
  /-- Otherwise the interpreter goes on with what the future comes to. -/
  settled : ∀ x ∈ polls, x.2.isInterrupted m.token = false →
    (Process.turn (.awaiting m x.1) x.2).process = m.goesOn x.1 (x.1.future.poll x.1.op (x.2.attend x.1.op))
  /-- The future is not polled again when the token has tripped. -/
  unpolled : ∀ i, .tripped m.token ∈ es.take i → .polled w.newOperation.1 ∉ es.drop i
  hooks : w.isInterrupted m.token = false → HostEvent.HooksServed m.token w.newOperation.1 es

/-! ## Lists of events -/

namespace HostEvent

variable {t : TokenId} {op : OperationId} {es es' : List HostEvent}

/-- Code does nothing that is for the interpreter to do. -/
theorem not_own_of_code {e : HostEvent} (h : e.isCode = true) :
    e.isCall op = false ∧ e ≠ .polled op ∧ e ≠ .resolved op := by
  cases e <;> simp_all [isCode, isCall]

theorem tripsDuring_of_unresolved (h : .resolved op ∉ es) : TripsDuring t op es ↔ .tripped t ∈ es :=
  ⟨fun ⟨_, hi, _⟩ => List.mem_of_getElem? hi, fun ht => by
    obtain ⟨i, hi⟩ := List.mem_iff_getElem?.mp ht
    exact ⟨i, hi, fun hr => h (List.mem_of_mem_take hr)⟩⟩

/-- What happens when an operation is over is of no account. -/
theorem tripsDuring_append (h : .resolved op ∈ es) : TripsDuring t op (es ++ es') ↔ TripsDuring t op es := by
  constructor
  · rintro ⟨i, hi, hn⟩
    rcases getElem?_append_cases hi with ⟨-, hi, htake⟩ | ⟨-, -, htake⟩ <;> rw [htake] at hn
    · exact ⟨i, hi, hn⟩
    · exact absurd (List.mem_append_left _ h) hn
  · rintro ⟨i, hi, hn⟩
    have hlt := (List.getElem?_eq_some_iff.mp hi).1
    refine ⟨i, by rwa [List.getElem?_append_left hlt], ?_⟩
    rwa [List.take_append_of_le_length (Nat.le_of_lt hlt)]

/-- An operation is over from here on. -/
theorem tripsDuring_resolved (h : .resolved op ∉ es) :
    TripsDuring t op (es ++ [.resolved op]) ↔ .tripped t ∈ es := by
  constructor
  · rintro ⟨i, hi, hn⟩
    have hmem := List.mem_append.mp (List.mem_of_getElem? hi)
    simpa using hmem
  · intro ht
    obtain ⟨i, hi⟩ := List.mem_iff_getElem?.mp ht
    have hlt := (List.getElem?_eq_some_iff.mp hi).1
    refine ⟨i, by rwa [List.getElem?_append_left hlt], fun hr => ?_⟩
    rw [List.take_append_of_le_length (Nat.le_of_lt hlt)] at hr
    exact h (List.mem_of_mem_take hr)

end HostEvent

/-! ## While an operation is awaited, and afterwards -/

/-- What has happened to an operation that has been started, and that nobody knew of in `w₀`. -/
structure HostEvent.Tells (t : TokenId) (op : OperationId) (w₀ : World) (es : List HostEvent) (w : World) : Prop where
  serves : w₀.Serves op [] es w
  called : es.countP (·.isCall op) = 1
  unpolled : ∀ i, .tripped t ∈ es.take i → .polled op ∉ es.drop i

namespace HostEvent.Tells

variable {t : TokenId} {op : OperationId} {w₀ w w' : World} {es es' : List HostEvent}

/-- More happens, but the factory is not called and the future is not polled. -/
theorem append (h : Tells t op w₀ es w) (hs : w.Serves op [] es' w') (hc : ∀ e ∈ es', e.isCall op = false)
    (hp : .polled op ∉ es') : Tells t op w₀ (es ++ es') w' where
  serves := h.serves.trans hs
  called := by
    rw [List.countP_append, h.called, List.countP_eq_zero.mpr fun e he => by rw [hc e he]; nofun]
  unpolled i hi := by
    rw [List.take_append, List.mem_append] at hi
    rw [List.drop_append, List.mem_append]
    rintro (hmem | hmem)
    · rcases hi with hi | hi
      · exact h.unpolled i hi hmem
      · have hlt : es.length < i := by
          refine Nat.lt_of_not_le fun hle => ?_
          rw [Nat.sub_eq_zero_of_le hle] at hi
          nomatch hi
        rw [List.drop_eq_nil_of_le (Nat.le_of_lt hlt)] at hmem
        nomatch hmem
    · exact hp (List.mem_of_mem_drop hmem)

/-- The future is polled while the token has not been tripped. -/
theorem poll (h : Tells t op w₀ es w) (ht : .tripped t ∉ es) : Tells t op w₀ (es ++ [.polled op]) w where
  serves := h.serves.trans (.untouched h.serves.begun rfl rfl rfl (by simp))
  called := by
    rw [List.countP_append, h.called]
    rfl
  unpolled i hi := by
    have := List.mem_of_mem_take hi
    simp [ht] at this

/-- What others do while an operation is awaited is told along with what has happened before. -/
theorem meanwhile (h : Tells t op w₀ es w) (hm : w.Meanwhile op es' w') : Tells t op w₀ (es ++ es') w' := by
  have haccounts := hm.accounts h.serves.begun
  refine h.append (hm.serves h.serves.begun) (fun e he => (not_own_of_code (haccounts.code e he)).1) fun he => ?_
  exact (not_own_of_code (haccounts.code _ he)).2.1 rfl

end HostEvent.Tells

/-- An operation is awaited under a token: it is to be stopped under one subscription only, and it has been stopped if and only
if the token has tripped. -/
structure Awaited.Open (a : Awaited) (t : TokenId) (w₀ : World) (es : List HostEvent) (w : World) : Prop
    extends HostEvent.Tells t a.op w₀ es w where
  keys : w.KeysSound
  watched : a.Watched w t
  watches : w.Watches t a.op
  sole : ∀ s, w.Registered s (.operation a.op) → s = a.stopper
  unresolved : .resolved a.op ∉ es
  tripped : w.isInterrupted t = true ↔ .tripped t ∈ es

/-- An operation is over: it will not be stopped any more, and it has been stopped if and only if the token has tripped while
it was awaited. -/
structure HostEvent.Closed (t : TokenId) (op : OperationId) (w₀ : World) (es : List HostEvent) (w : World) : Prop
    extends HostEvent.Tells t op w₀ es w where
  gone : ∀ s, ¬ w.Registered s (.operation op)
  resolved : .resolved op ∈ es
  fired : w.isFired op = true ↔ TripsDuring t op es

namespace Awaited.Open

variable {a : Awaited} {t : TokenId} {w₀ w w' : World} {es es' : List HostEvent}

/-- Between turns an operation has been stopped if and only if its token has been tripped. -/
theorem fired_iff (h : a.Open t w₀ es w) : w.isFired a.op = true ↔ w.isInterrupted t = true := by
  refine ⟨h.watches.quiet, fun ht => ?_⟩
  rcases h.watched.stopped with ⟨-, hl⟩ | ⟨-, hf⟩
  · rw [h.watched.token, ht] at hl
    nomatch hl
  · exact hf

/-- An operation stays open while others do something else. -/
theorem meanwhile (h : a.Open t w₀ es w) (hm : w.Meanwhile a.op es' w') : a.Open t w₀ (es ++ es') w' := by
  have haccounts := hm.accounts h.serves.begun
  obtain ⟨hkeys, hwatched⟩ := hm.guards h.keys
  exact
    { toTells := h.toTells.meanwhile hm
      keys := hkeys
      watched := hwatched a t rfl h.watched
      watches := hm.later.watches h.watches
      sole := fun s hs => h.sole s (haccounts.registered s hs)
      unresolved := fun hr => by
        rcases List.mem_append.mp hr with hr | hr
        · exact h.unresolved hr
        · exact (HostEvent.not_own_of_code (haccounts.code _ hr)).2.2 rfl
      tripped := by rw [haccounts.tripped, h.tripped, List.mem_append] }

/-- The future is polled, if the operation has not been stopped. -/
theorem poll (h : a.Open t w₀ es w) (hf : w.isFired a.op = false) :
    a.Open t w₀ (es ++ .polled a.op :: a.future.events a.op (w.attend a.op)) (a.future.poll a.op (w.attend a.op)).2 := by
  have ht : .tripped t ∉ es := fun ht => by
    rw [h.fired_iff.mpr (h.tripped.mpr ht)] at hf
    nomatch hf
  have hpolled : a.Open t w₀ (es ++ [.polled a.op]) w :=
    { h with
      toTells := h.toTells.poll ht
      unresolved := by simpa using h.unresolved
      tripped := by simpa using h.tripped }
  have hrun := (hpolled.meanwhile (.attended a.op w)).meanwhile (.polled a.future a.op (w.attend a.op))
  rwa [List.append_nil, List.append_assoc] at hrun

/-- The operation goes on with what is left of its future. -/
theorem rest (h : a.Open t w₀ es w) (rest : Future) : { a with future := rest }.Open t w₀ es w :=
  { h with watched := ⟨h.watched.token, h.watched.holds, h.watched.stopped⟩ }

/-- The subscription of the operation is given up. -/
theorem close (h : a.Open t w₀ es w) :
    HostEvent.Closed t a.op w₀ (es ++ [.resolved a.op]) (w.unsubscribe a.stopper) where
  toTells := h.toTells.append (.untouched h.serves.begun rfl rfl rfl (by simp)) (by simp [HostEvent.isCall]) (by simp)
  gone s hs := by
    have hkept : w.Accounts a.op [] (w.unsubscribe a.stopper) :=
      .modifyToken (fun _ => rfl) fun _ _ h => (List.mem_filter.mp h).1
    obtain rfl := h.sole s (hkept.registered s hs)
    obtain ⟨x, hx, hmem⟩ := hs
    rw [World.unsubscribe, World.getElem?_modifyToken, if_pos rfl] at hx
    obtain ⟨y, -, rfl⟩ := Option.map_eq_some_iff.mp hx
    simpa using (List.mem_filter.mp hmem).2
  resolved := by simp
  fired := by
    rw [HostEvent.tripsDuring_resolved h.unresolved, ← h.tripped, ← h.fired_iff]
    rfl

end Awaited.Open

/-- Whatever happens when an operation is over, it is not stopped any more. -/
theorem HostEvent.Closed.meanwhile {t : TokenId} {op : OperationId} {w₀ w w' : World} {es es' : List HostEvent}
    (h : Closed t op w₀ es w) (hm : w.Meanwhile op es' w') : Closed t op w₀ (es ++ es') w' where
  toTells := h.toTells.meanwhile hm
  gone s hs := h.gone s ((hm.accounts h.serves.begun).registered s hs)
  resolved := List.mem_append_left _ h.resolved
  fired := by
    rw [HostEvent.tripsDuring_append h.resolved, ← h.fired]
    refine ⟨fun hf => ?_, fun hf => (hm.serves h.serves.begun).stopped.mpr (.inl hf)⟩
    rcases hm.later.fired op h.serves.begun hf with hf | ⟨s, ⟨x, hx, key, hmem⟩, -⟩
    · exact hf
    · exact absurd ⟨x, hx, hmem⟩ (h.gone { token := s, key })

/-! ## Turns -/

/-- What an interpreter `m` makes of an operation under its token. -/
inductive Interpreter.Tends (m : Interpreter) (op : OperationId) (onReject : Value → Action (Cause Value)) (w₀ : World)
    (es : List HostEvent) : Process → World → Prop where
  | awaiting {a : Awaited} {w : World} (ho : a.op = op) (hr : a.onReject = onReject) (h : a.Open m.token w₀ es w) :
    Tends m op onReject w₀ es (.awaiting m a) w
  | closed {p : Process} {w : World} (hp : ∀ m' a, p ≠ .awaiting m' a) (h : HostEvent.Closed m.token op w₀ es w) :
    Tends m op onReject w₀ es p w

namespace Interpreter

variable {m : Interpreter} {op : OperationId} {onReject : Value → Action (Cause Value)} {w₀ w w' : World}
  {es es' : List HostEvent} {p : Process}

theorem Tends.tells (h : m.Tends op onReject w₀ es p w) : HostEvent.Tells m.token op w₀ es w := by
  cases h with
  | awaiting ho _ h =>
    subst ho
    exact h.toTells
  | closed _ h => exact h.toTells

/-- All along, an operation has been stopped if and only if the token has tripped while it was awaited. -/
theorem Tends.fired_iff (h : m.Tends op onReject w₀ es p w) :
    w.isFired op = true ↔ HostEvent.TripsDuring m.token op es := by
  cases h with
  | awaiting ho _ h =>
    subst ho
    rw [h.fired_iff, h.tripped, HostEvent.tripsDuring_of_unresolved h.unresolved]
  | closed _ h => exact h.fired

/-- An interpreter goes on tending its operation while others do something else. -/
theorem Tends.meanwhile (h : m.Tends op onReject w₀ es p w) (hm : w.Meanwhile op es' w') :
    m.Tends op onReject w₀ (es ++ es') p w' := by
  cases h with
  | awaiting ho hr h =>
    subst ho
    exact .awaiting rfl hr (h.meanwhile hm)
  | closed hp h => exact .closed hp (h.meanwhile hm)

/-- The interpreter gives the operation up, and goes on otherwise. -/
theorem tends_close {a : Awaited} (h : a.Open m.token w₀ es w) (hp : ∀ m' a, p ≠ .awaiting m' a) :
    m.Tends a.op onReject w₀ (es ++ [.resolved a.op]) p ((w.unsubscribe a.stopper).forget a.op) := by
  have hforget : (w.unsubscribe a.stopper).Steady ((w.unsubscribe a.stopper).forget a.op) := ⟨rfl, rfl⟩
  have hclosed := h.close.meanwhile (.steady hforget)
  rw [List.append_nil] at hclosed
  exact .closed hp hclosed

/-- If the token has been tripped, a turn gives the future up. -/
theorem turn_of_tripped {a : Awaited} (h : a.Open m.token w₀ es w) (ht : w.isInterrupted m.token = true) :
    Process.turn (.awaiting m a) w = m.interrupted ((w.unsubscribe a.stopper).forget a.op) := by
  simp only [Process.turn, pollAwaited, if_pos (h.fired_iff.mpr ht)]

/-- As long as the token has not been tripped, a turn polls the future. -/
theorem turn_of_untripped {a : Awaited} (h : a.Open m.token w₀ es w) (ht : w.isInterrupted m.token = false) :
    (Process.turn (.awaiting m a) w).process = m.goesOn a (a.future.poll a.op (w.attend a.op)) := by
  have hf : ¬ w.isFired a.op = true := fun hf => by
    rw [h.fired_iff.mp hf] at ht
    nomatch ht
  simp only [Process.turn, pollAwaited, if_neg hf]
  rcases a.future.poll a.op (w.attend a.op) with ⟨rest | ⟨x | p⟩ | p, v⟩ <;> rfl

/-- What a turn makes of an operation that is awaited. -/
theorem tends_turn {a : Awaited} (h : a.Open m.token w₀ es w) :
    m.Tends a.op a.onReject w₀ (es ++ a.events w) (Process.turn (.awaiting m a) w).process
      (Process.turn (.awaiting m a) w).world := by
  simp only [Process.turn, pollAwaited, Awaited.events]
  by_cases hf : w.isFired a.op = true
  · rw [if_pos hf, if_pos hf]
    have hclosed : m.Tends a.op a.onReject w₀ _ (.popping m .interruption) _ := tends_close h fun _ _ h => by cases h
    have hnoted := hclosed.meanwhile (.steady (.record _ (.unwinding m.frames.height m.instructions)))
    rwa [List.append_nil] at hnoted
  · rw [if_neg hf, if_neg hf]
    have hpoll := h.poll (Bool.eq_false_iff.mpr hf)
    have hclosed (n : Node) : m.Tends a.op a.onReject w₀ _ (.next m n) _ := tends_close hpoll fun _ _ h => by cases h
    rcases hp : a.future.poll a.op (w.attend a.op) with ⟨rest | ⟨x | p⟩ | p, v⟩ <;> rw [hp] at hpoll hclosed
    · rw [List.append_nil]
      exact .awaiting rfl rfl (hpoll.rest rest)
    · have hrejected (n : Node) := (hclosed n).meanwhile (.guarded (do return .fail (← a.onReject x)) _)
      simp only [List.append_assoc] at hrejected
      exact hrejected _
    · have hsettled := hclosed (.succeed p)
      rwa [List.append_assoc] at hsettled
    · have hpanicked := hclosed (.die p.defect)
      rwa [List.append_assoc] at hpanicked

end Interpreter

/-! ## The start -/

namespace World

/-- A token that has been told to stop an operation has been told so under the subscription that it gave. -/
theorem react_sole {w w' : World} {t : TokenId} {op : OperationId} {stopper : Subscription}
    (h : w.react t (.stop op) = (some stopper, w')) (hn : ∀ s, ¬ w.Registered s (.operation op)) (s : Subscription)
    (hs : w'.Registered s (.operation op)) : s = stopper := by
  unfold react at h
  rcases subscribe_cases w t (.stop op) with hsub | ⟨token, ht, -, hsub⟩ <;> rw [hsub] at h
  · nomatch h
  · obtain ⟨hstopper, rfl⟩ := Prod.mk.inj h
    obtain ⟨x, hx, hmem⟩ := hs
    rw [getElem?_modifyToken] at hx
    by_cases hst : t = s.token
    · rw [if_pos hst, ← hst, ht] at hx
      obtain rfl := Option.some.inj hx
      rcases List.mem_append.mp hmem with hmem | hmem
      · exact absurd ⟨token, by rw [← hst, ht], hmem⟩ (hn s)
      · rw [← Option.some.inj hstopper, ← (Prod.mk.inj (List.mem_singleton.mp hmem)).1, hst]
    · rw [if_neg hst] at hx
      exact absurd ⟨x, hx, hmem⟩ (hn s)

/-- An operation that has just been made has no hooks and has not been stopped. -/
theorem newOperation_fresh (w : World) :
    w.newOperation.2.waitingHooks w.newOperation.1 = [] ∧ w.newOperation.2.isFired w.newOperation.1 = false := by
  simp [waitingHooks, isFired, newOperation]

end World

namespace Interpreter

variable {m : Interpreter} {factory : OperationId → Action Future} {onReject : Value → Action (Cause Value)} {w : World}

/-- The operation that an interpreter has started is awaited when its factory is called. -/
theorem open_of_react (hs : w.Sound) (hk : w.KeysSound) {stopper : Subscription} {v : World}
    (hr : w.newOperation.2.react m.token (.stop w.newOperation.1) = (some stopper, v)) (future : Future)
    (onReject : Value → Action (Cause Value)) :
    Awaited.Open { op := w.newOperation.1, stopper, future, onReject } m.token w.newOperation.2 [.called w.newOperation.1] v := by
  have hnew : World.Faithful Stake.None w w.newOperation.2 := .newOperation
  have hop : w.newOperation.1 < w.newOperation.2.operations.size := by simp [World.newOperation]
  obtain ⟨hreact, hsome, -⟩ := World.react_stake (x := .operation w.newOperation.1) (hnew.keysSound hk) hop hr
  obtain ⟨htoken, hholds, hlive⟩ := hsome stopper rfl
  have hserves : w.newOperation.2.Serves w.newOperation.1 [] [.called w.newOperation.1] v := by
    refine .untouched hop ?_ rfl rfl (by simp)
    rw [World.of_react_eq_some hr]
    rfl
  exact
    { serves := hserves
      called := by simp [HostEvent.isCall]
      unpolled := fun i hi => by simpa using List.mem_of_mem_take hi
      keys := hreact.keysSound (hnew.keysSound hk)
      watched := ⟨htoken, hholds, .inl hlive⟩
      watches := World.watches_react hs hr
      sole := World.react_sole hr fun s hreg => by
        obtain ⟨x, hx, hmem⟩ := hreg
        exact Nat.lt_irrefl _ (hs s.token w.newOperation.1 ⟨x, hx, _, hmem⟩)
      unresolved := by simp
      tripped := by
        rw [← htoken, hlive.2]
        simp }

/-- How an interpreter starts an operation, if its token has not been tripped. -/
theorem tends_start (factory : OperationId → Action Future) (onReject : Value → Action (Cause Value))
    (ht : m.token < w.tokens.size) (hs : w.Sound) (hk : w.KeysSound) (ho : w.isInterrupted m.token = false) :
    m.Tends w.newOperation.1 onReject w.newOperation.2 (m.awaitEvents factory w) (m.await factory onReject w).process
        (m.await factory onReject w).world ∧
      ∃ stopper v, w.newOperation.2.react m.token (.stop w.newOperation.1) = (some stopper, v) ∧
        (m.await factory onReject w).process =
          match ((factory w.newOperation.1).run v).1 with
          | .ok future => .awaiting m { op := w.newOperation.1, stopper, future, onReject }
          | .error p => .next m (.die p.defect) := by
  obtain ⟨stopper, v, hr⟩ := World.react_eq_some (w := w.newOperation.2) ht ho (.stop w.newOperation.1)
  have hopen (future : Future) :=
    (open_of_react hs hk hr future onReject).meanwhile (.acted (factory w.newOperation.1) v)
  refine ⟨?_, stopper, v, hr, ?_⟩
  · simp only [await, awaitEvents, hr]
    rcases hf : (factory w.newOperation.1).run v with ⟨p | future, u⟩ <;> rw [hf] at hopen
    · refine .closed (fun _ _ h => by cases h) ?_
      have hclosed := (hopen .never).close
      rwa [List.append_assoc] at hclosed
    · rw [List.append_nil]
      exact .awaiting rfl rfl (hopen future)
  · simp only [await, hr]
    rcases (factory w.newOperation.1).run v with ⟨p | future, u⟩ <;> rfl

/-- The hooks of an operation that nobody has known of before. -/
theorem Tends.hooks {op : OperationId} {w₀ v : World} {es : List HostEvent} {p : Process}
    (h : m.Tends op onReject w₀ es p v) (hempty : w₀.waitingHooks op = []) (hquiet : w₀.isFired op = false) :
    HostEvent.HooksServed m.token op es := by
  have hserves := h.tells.serves
  have hstopped : v.isFired op = true ↔ .stopped op ∈ es := by simpa [hquiet] using hserves.stopped
  have hbalance := hserves.balance
  rw [hempty] at hbalance
  exact
    { stopped := by rw [← hstopped, h.fired_iff]
      once := fun ht => by
        rw [hserves.spent (fun _ => hempty) (h.fired_iff.mpr ht), List.append_nil] at hbalance
        exact hbalance
      never := fun ht => hserves.quiet (Bool.eq_false_iff.mpr fun hf => ht (h.fired_iff.mp hf))
      order := fun i l hi => (hserves.order i l hi).resolve_left fun hf => by rw [hquiet] at hf; nomatch hf
      prompt := fun i l hi hs => hserves.prompt i l hi (.inr hs) }

/-- If the token has been tripped, nothing is started and the interpreter is interrupted. -/
theorem await_skipped (factory : OperationId → Action Future) (onReject : Value → Action (Cause Value))
    (ht : w.isInterrupted m.token = true) :
    (m.await factory onReject w).process = .popping m .interruption ∧
      w.newOperation.1 < (m.await factory onReject w).world.operations.size ∧
      ∀ e ∈ m.awaitEvents factory w, e = .resolved w.newOperation.1 ∨ e.isCode = true := by
  have hsub : w.newOperation.2.subscribe m.token (.stop w.newOperation.1) = (none, w.newOperation.2) := by
    rcases World.subscribe_cases w.newOperation.2 m.token (.stop w.newOperation.1) with hs | ⟨token, htoken, hi, -⟩
    · exact hs
    · have hget : w.tokens[m.token]? = some token := htoken
      simp [World.isInterrupted, hget, hi] at ht
  have hevents : w.newOperation.2.Accounts w.newOperation.1 _ _ :=
    World.react_labelled (World.accounts_labelled _) (by rw [hsub]; exact .steady (.refl _))
  rcases hr : w.newOperation.2.react m.token (.stop w.newOperation.1) with ⟨_ | stopper, v⟩ <;> rw [hr] at hevents
  · have hop : w.newOperation.1 < w.newOperation.2.operations.size := by simp [World.newOperation]
    simp only [await, hr]
    refine ⟨rfl, Nat.lt_of_lt_of_le hop hevents.operations, fun e he => ?_⟩
    simp only [awaitEvents, hr, List.mem_append, List.mem_singleton] at he
    exact he.symm.imp_right (hevents.code e)
  · simp only [World.react, hsub] at hr
    cases hr

end Interpreter

/-! ## The whole course -/

namespace Process.Course

variable {m : Interpreter} {op : OperationId} {onReject : Value → Action (Cause Value)} {w₀ w v : World} {p q : Process}
  {polls : List (Awaited × World)} {es es₀ : List HostEvent}

/-- An interpreter that does not await the operation does not look after it. -/
theorem idle (course : Course m op p w polls es q v) (hp : ∀ m' a, p ≠ .awaiting m' a) (hop : op < w.operations.size) :
    polls = [] ∧ ∀ e ∈ es, e.isCode = true := by
  induction course with
  | done => exact ⟨rfl, fun _ he => nomatch he⟩
  | poll _ _ => exact absurd rfl (hp _ _)
  | meanwhile hm _ ih =>
    have haccounts := hm.accounts hop
    obtain ⟨hpolls, hcode⟩ := ih hp (Nat.lt_of_lt_of_le hop haccounts.operations)
    exact ⟨hpolls, fun e he => (List.mem_append.mp he).elim (haccounts.code e) (hcode e)⟩

/-- What becomes of an operation in the course of time. -/
theorem tends (course : Course m op p w polls es q v) (h : m.Tends op onReject w₀ es₀ p w) :
    m.Tends op onReject w₀ (es₀ ++ es) q v ∧
      ∀ x ∈ polls, x.1.op = op ∧ x.1.onReject = onReject ∧ ∃ es', x.1.Open m.token w₀ es' x.2 := by
  induction course generalizing es₀ with
  | done => exact ⟨by rwa [List.append_nil], fun _ hx => nomatch hx⟩
  | poll _ ih =>
    cases h with
    | closed hp _ => exact absurd rfl (hp _ _)
    | awaiting ho hr h =>
      subst ho hr
      obtain ⟨hlater, hpolls⟩ := ih (Interpreter.tends_turn h)
      rw [List.append_assoc] at hlater
      refine ⟨hlater, fun x hx => ?_⟩
      rcases List.mem_cons.mp hx with rfl | hx
      · exact ⟨rfl, rfl, es₀, h⟩
      · exact hpolls x hx
  | meanwhile hm _ ih =>
    obtain ⟨hlater, hpolls⟩ := ih (h.meanwhile hm)
    rw [List.append_assoc] at hlater
    exact ⟨hlater, hpolls⟩

end Process.Course

/-- What becomes of a host operation, in whatever course: its factory is called once or not at all, its future is polled as long
as the token has not tripped, and its hooks are invoked once if the token trips while the operation is awaited. -/
theorem host_operation_adapts {m : Interpreter} {factory : OperationId → Action Future} {onReject : Value → Action (Cause Value)}
    {w v : World} {polls : List (Awaited × World)} {es : List HostEvent} {q : Process} (ht : m.token < w.tokens.size)
    (hs : w.Sound) (hk : w.KeysSound)
    (course : Process.Course m w.newOperation.1 (m.await factory onReject w).process (m.await factory onReject w).world polls
      es q v) : m.Adapts factory onReject w polls (m.awaitEvents factory w ++ es) := by
  obtain ⟨hempty, hquiet⟩ := w.newOperation_fresh
  cases ho : w.isInterrupted m.token with
  | false =>
    obtain ⟨hstart, hstarted⟩ := Interpreter.tends_start factory onReject ht hs hk ho
    obtain ⟨hend, hpolls⟩ := course.tends hstart
    exact
      { called := by rw [hend.tells.called, ho]; rfl
        skipped := fun h => by rw [ho] at h; nomatch h
        started := fun _ => hstarted
        own := fun x hx => ⟨(hpolls x hx).1, (hpolls x hx).2.1⟩
        interrupted := fun x hx => by
          obtain ⟨-, -, _, hopen⟩ := hpolls x hx
          exact Interpreter.turn_of_tripped hopen
        settled := fun x hx => by
          obtain ⟨-, -, _, hopen⟩ := hpolls x hx
          exact Interpreter.turn_of_untripped hopen
        unpolled := hend.tells.unpolled
        hooks := fun _ => hend.hooks hempty hquiet }
  | true =>
    obtain ⟨hprocess, hop, hskipped⟩ := Interpreter.await_skipped factory onReject ho
    obtain ⟨hpolls, hcode⟩ := course.idle (by rw [hprocess]; exact fun _ _ => nofun) hop
    have hevents : ∀ e ∈ m.awaitEvents factory w ++ es,
        e.isCall w.newOperation.1 = false ∧ e ≠ .polled w.newOperation.1 := fun e he => by
      have hcases : e = .resolved w.newOperation.1 ∨ e.isCode = true :=
        (List.mem_append.mp he).elim (hskipped e) fun he => .inr (hcode e he)
      rcases hcases with rfl | hc
      · exact ⟨rfl, nofun⟩
      · exact ⟨(HostEvent.not_own_of_code hc).1, (HostEvent.not_own_of_code hc).2.1⟩
    exact
      { called := by
          rw [ho, if_pos rfl, List.countP_eq_zero]
          exact fun e he hcall => by rw [(hevents e he).1] at hcall; nomatch hcall
        skipped := fun _ => ⟨hprocess, hpolls⟩
        started := fun h => by rw [ho] at h; nomatch h
        own := fun x hx => by rw [hpolls] at hx; nomatch hx
        interrupted := fun x hx => by rw [hpolls] at hx; nomatch hx
        settled := fun x hx => by rw [hpolls] at hx; nomatch hx
        unpolled := fun i _ hmem => (hevents _ (List.mem_of_mem_drop hmem)).2 rfl
        hooks := fun h => by rw [ho] at h; nomatch h }

/-! ## A hook that has to wait -/

/-- A hook that logs a word. -/
def loggingHook (word : String) : Listener := .ask (.log (.str word)) fun _ => .done

/-- A world with one token and a listener of it, which hands a hook to the operation whose hooks have been kept. -/
def listeningWorld : World :=
  let listener : Listener := .ask (.findHooks "hooks") fun
    | some op => .register op (loggingHook "late") (loggingHook "registered")
    | none => .done
  ((Action.subscribe 0 listener fun _ => .pure ()).run (World.newToken {}).2).2

/-- A future that never settles. Its factory keeps the hooks of the operation and registers one. -/
def keptFuture (op : OperationId) : Action Future :=
  .ask (.keepHooks "hooks" op) fun _ => .register op (loggingHook "early") (.pure .never)

/-- An interpreter under the token of that world. -/
def keptInterpreter : Interpreter := { env := .plain .null, token := 0, interval := 9 }

/-- What a rejection of that future would be turned into. -/
def keptReject (x : Value) : Action (Cause Value) := .pure (.fail x)

/-- The interpreter as it awaits the future. -/
def keptTurn : Turn := keptInterpreter.await keptFuture keptReject listeningWorld

/-- The token is tripped again, and one more hook is registered. -/
def tripAgain : Action Unit := .ask (.interrupt 0) fun _ => .register 0 (loggingHook "afterwards") (.pure ())

/-- The future is polled and waits, the token trips, and the interpreter is interrupted. -/
theorem keptTurn_course : ∃ (polls : List (Awaited × World)) (es : List HostEvent) (v : World),
    Process.Course keptInterpreter 0 keptTurn.process keptTurn.world polls es (.popping keptInterpreter .interruption) v ∧
      v.log = #[.str "registered", .str "early", .str "late", .str "afterwards"] ∧
      es[2]? = some (.registered 0 (loggingHook "late")) ∧ es.take 2 = [.polled 0, .tripped 0] ∧
      es[3]? = some (.stopped 0) :=
  ⟨_, _, _, .poll (.meanwhile (.acted (Action.perform (.interrupt 0)) _) (.poll (.meanwhile (.acted tripAgain _) (.done _ _)))),
    rfl, rfl, rfl, rfl⟩

theorem listeningWorld_sound : listeningWorld.Sound ∧ listeningWorld.KeysSound := by
  have hempty : World.KeysSound {} := fun s x ⟨token, ht, _⟩ => nomatch ht
  have hnew : World.Faithful Stake.None {} (World.newToken {}).2 := .newToken
  have hsound := (World.newToken_later {}).sound (World.sound_of_no_tokens rfl)
  exact ⟨(Action.run_later _ _).sound hsound, (Action.run_acts _ _).keysSound (hnew.keysSound hempty)⟩

/-- A future that never settles, under a token whose listener registers a hook: that hook waits until the operation is stopped,
and one that comes afterwards runs at once. -/
theorem host_operation_adapts_kept : ∃ (polls : List (Awaited × World)) (es : List HostEvent) (v : World),
    Process.Course keptInterpreter 0 keptTurn.process keptTurn.world polls es (.popping keptInterpreter .interruption) v ∧
      v.log = #[.str "registered", .str "early", .str "late", .str "afterwards"] ∧
      keptInterpreter.Adapts keptFuture keptReject listeningWorld polls
        (keptInterpreter.awaitEvents keptFuture listeningWorld ++ es) := by
  obtain ⟨polls, es, v, course, hlog, -⟩ := keptTurn_course
  exact ⟨polls, es, v, course, hlog,
    host_operation_adapts (m := keptInterpreter) (by decide) listeningWorld_sound.1 listeningWorld_sound.2 course⟩

/-- A hook that is handed over after the token has tripped, and is not invoked at once. -/
theorem hook_held_back : ∃ (polls : List (Awaited × World)) (es : List HostEvent) (v : World) (i : Nat) (l : Listener),
    Process.Course keptInterpreter 0 keptTurn.process keptTurn.world polls es (.popping keptInterpreter .interruption) v ∧
      es[i]? = some (.registered 0 l) ∧ .tripped keptInterpreter.token ∈ es.take i ∧ es[i + 1]? ≠ some (.invoked 0 l) := by
  obtain ⟨polls, es, v, course, -, hregistered, hbefore, hafter⟩ := keptTurn_course
  refine ⟨polls, es, v, 2, loggingHook "late", course, hregistered, ?_, ?_⟩
  · rw [hbefore]
    exact List.mem_cons_of_mem _ List.mem_cons_self
  · rw [hafter]
    nofun

end Interruptible
