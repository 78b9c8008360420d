import Interruptible.Proofs.World.Code

/-!
# Later worlds

`World.Later w w'` says that `w'` can come after `w`: tokens and operations are only added, a token that has been tripped
stays tripped, and a host operation is stopped only by a token on which it waits to be stopped. Everything that a callback, a
listener or a future does leads to a later world (`Action.run_later`, `Future.poll_later`), and so does a trip with all that
follows from it (`World.interrupt_later`). A trip that reaches a token leaves it tripped (`World.isInterrupted_interrupt`).
-/

namespace Interruptible

namespace World

/-- A token holds the reaction that stops an operation. -/
def Stops (w : World) (t : TokenId) (op : OperationId) : Prop :=
  ∃ token, w.tokens[t]? = some token ∧ ∃ key, (key, Reaction.stop op) ∈ token.entries

/-- A world that can come after another one. -/
structure Later (w w' : World) : Prop where
  tokens : w.tokens.size ≤ w'.tokens.size
  operations : w.operations.size ≤ w'.operations.size
  latched : ∀ t, w.isInterrupted t = true → w'.isInterrupted t = true
  stops : ∀ t op, w'.Stops t op → w.Stops t op ∨ w.operations.size ≤ op ∧ op < w'.operations.size
  fired : ∀ op, op < w.operations.size → w'.isFired op = true →
    w.isFired op = true ∨ ∃ t, w.Stops t op ∧ w'.isInterrupted t = true

namespace Later

/-- A world with the same tokens and operations comes after. -/
theorem of_eq {w w' : World} (ht : w'.tokens = w.tokens) (ho : w'.operations = w.operations) : Later w w' where
  tokens := Nat.le_of_eq (by rw [ht])
  operations := Nat.le_of_eq (by rw [ho])
  latched t h := by simpa only [isInterrupted, ht] using h
  stops t op h := by
    left
    simpa only [Stops, ht] using h
  fired op _ h := by
    left
    simpa only [isFired, ho] using h

theorem refl (w : World) : Later w w := of_eq rfl rfl

/-- What leads to a later world does so together with its answer. -/
theorem answer {α : Type} {w v : World} {x : α × World} (h : Later w x.2) {a : α} (hx : x = (a, v)) : Later w v := by
  rwa [hx] at h

theorem trans {w₁ w₂ w₃ : World} (h : Later w₁ w₂) (h' : Later w₂ w₃) : Later w₁ w₃ where
  tokens := Nat.le_trans h.tokens h'.tokens
  operations := Nat.le_trans h.operations h'.operations
  latched t ht := h'.latched t (h.latched t ht)
  stops t op hs := by
    rcases h'.stops t op hs with hs | ⟨hlo, hhi⟩
    · rcases h.stops t op hs with hs | ⟨hlo, hhi⟩
      · exact Or.inl hs
      · exact Or.inr ⟨hlo, Nat.lt_of_lt_of_le hhi h'.operations⟩
    · exact Or.inr ⟨Nat.le_trans h.operations hlo, hhi⟩
  fired op hop hf := by
    rcases h'.fired op (Nat.lt_of_lt_of_le hop h.operations) hf with hf | ⟨t, hs, ht⟩
    · rcases h.fired op hop hf with hf | ⟨t, hs, ht⟩
      · exact Or.inl hf
      · exact Or.inr ⟨t, hs, h'.latched t ht⟩
    · rcases h.stops t op hs with hs | ⟨hlo, _⟩
      · exact Or.inr ⟨t, hs, ht⟩
      · exact absurd hop (Nat.not_lt_of_le hlo)

/-- What has not been tripped later has not been tripped before. -/
theorem untripped {w w' : World} (h : Later w w') {t : TokenId} (ht : w'.isInterrupted t = false) :
    w.isInterrupted t = false := by
  cases hw : w.isInterrupted t with
  | false => rfl
  | true => exact (h.latched t hw).symm.trans ht

end Later

/-! ## Tokens and operations under a change -/

/-- A token that has been tripped is there. -/
theorem exists_of_isInterrupted {w : World} {t : TokenId} (h : w.isInterrupted t = true) :
    ∃ x, w.tokens[t]? = some x ∧ x.interrupted = true := by
  simp only [isInterrupted] at h
  cases hx : w.tokens[t]? with
  | none => simp [hx] at h
  | some x => exact ⟨x, rfl, by simpa [hx] using h⟩

/-- A token that is made has not been tripped, and no other token is tripped by it. -/
theorem isInterrupted_newToken (w : World) (t : TokenId) : w.newToken.2.isInterrupted t = w.isInterrupted t := by
  simp only [isInterrupted, newToken, Array.getElem?_push]
  split
  · rename_i h
    subst h
    simp
  · rfl

/-- A new token has not been tripped. -/
theorem newToken_untripped (w : World) : w.newToken.2.isInterrupted w.newToken.1 = false := by
  simp [newToken, isInterrupted]

/-- A new token is there once it has been made. -/
theorem newToken_lt (w : World) : w.newToken.1 < w.newToken.2.tokens.size := by simp [newToken]

/-- Whether a token has been tripped when one of them has been changed. -/
theorem isInterrupted_modifyToken (w : World) (s t : TokenId) (f : Token → Token) :
    (w.modifyToken s f).isInterrupted t =
      if s = t then (w.tokens[t]?.map fun x => (f x).interrupted).getD false else w.isInterrupted t := by
  simp only [isInterrupted, modifyToken, Array.getElem?_modify]
  by_cases h : s = t
  · simp [h, Function.comp_def]
  · simp [h]

/-- A change to a token that leaves its latch as it is. -/
theorem isInterrupted_modifyToken_of_eq (w : World) (s t : TokenId) {f : Token → Token}
    (hf : ∀ x, (f x).interrupted = x.interrupted) : (w.modifyToken s f).isInterrupted t = w.isInterrupted t := by
  rw [isInterrupted_modifyToken]
  split
  · simp only [hf, isInterrupted]
  · rfl

/-- A change to a token that does not reset its latch. -/
theorem latched_modifyToken {w : World} (s : TokenId) {t : TokenId} {f : Token → Token}
    (hf : ∀ x, x.interrupted = true → (f x).interrupted = true) (h : w.isInterrupted t = true) :
    (w.modifyToken s f).isInterrupted t = true := by
  rw [isInterrupted_modifyToken]
  split
  · obtain ⟨x, hx, hi⟩ := exists_of_isInterrupted h
    simpa [hx] using hf x hi
  · exact h

/-- Dropping a subscription trips no token. -/
theorem isInterrupted_unsubscribe (w : World) (s : Subscription) (t : TokenId) :
    (w.unsubscribe s).isInterrupted t = w.isInterrupted t :=
  isInterrupted_modifyToken_of_eq w s.token t fun _ => rfl

/-- A change to a token that neither resets its latch nor adds a reaction that stops an operation. -/
theorem Later.modifyToken (w : World) (s : TokenId) (f : Token → Token)
    (hf : ∀ x, x.interrupted = true → (f x).interrupted = true)
    (he : ∀ x key op, (key, Reaction.stop op) ∈ (f x).entries → (key, Reaction.stop op) ∈ x.entries) :
    Later w (w.modifyToken s f) where
  tokens := by simp [World.modifyToken]
  operations := Nat.le_refl _
  latched _ h := latched_modifyToken s hf h
  stops t op h := by
    left
    obtain ⟨token, ht, key, hk⟩ := h
    simp only [World.modifyToken, Array.getElem?_modify] at ht
    by_cases hs : s = t
    · simp only [hs, if_true, Option.map_eq_some_iff] at ht
      obtain ⟨x, hx, rfl⟩ := ht
      exact ⟨x, hx, key, he x key op hk⟩
    · simp only [hs, if_false] at ht
      exact ⟨token, ht, key, hk⟩
  fired op _ h := Or.inl h

/-- A change to an operation that does not stop it. -/
theorem Later.modifyOperation (w : World) (op : OperationId) (f : Operation → Operation)
    (hf : ∀ x, (f x).fired = x.fired) : Later w (w.modifyOperation op f) where
  tokens := Nat.le_refl _
  operations := by simp [World.modifyOperation]
  latched _ h := h
  stops _ _ h := Or.inl h
  fired o _ h := by
    left
    simp only [isFired, World.modifyOperation, Array.getElem?_modify] at h ⊢
    by_cases ho : op = o
    · simpa [ho, Function.comp_def, hf] using h
    · simpa [ho] using h

/-- A token is made. -/
theorem newToken_later (w : World) : Later w w.newToken.2 where
  tokens := by simp [newToken]
  operations := Nat.le_refl _
  latched t h := (isInterrupted_newToken w t).trans h
  stops t op h := by
    left
    obtain ⟨token, ht, key, hk⟩ := h
    simp only [newToken, Array.getElem?_push] at ht
    by_cases hs : t = w.tokens.size
    · simp only [hs, if_true, Option.some.injEq] at ht
      subst ht
      simp at hk
    · simp only [hs, if_false] at ht
      exact ⟨token, ht, key, hk⟩
  fired op _ h := Or.inl h

/-- An operation begins. -/
theorem newOperation_later (w : World) : Later w w.newOperation.2 where
  tokens := Nat.le_refl _
  operations := by simp [newOperation]
  latched _ h := h
  stops _ _ h := Or.inl h
  fired op hop h := by
    left
    simp only [isFired, newOperation, Array.getElem?_push] at h ⊢
    simpa [Nat.ne_of_lt hop] using h

/-! ## What tasks and gates do -/

/-- A record is written. -/
theorem record_later (w : World) (r : Record) : Later w (w.record r) := Later.of_eq rfl rfl

/-- Waking a task changes neither tokens nor operations. -/
theorem tokens_wake (w : World) (t : TaskId) : (w.wake t).tokens = w.tokens ∧ (w.wake t).operations = w.operations := by
  unfold wake
  split
  · exact ⟨rfl, rfl⟩
  · split <;> exact ⟨rfl, rfl⟩

/-- A task is woken. -/
theorem wake_later (w : World) (t : TaskId) : Later w (w.wake t) :=
  Later.of_eq (tokens_wake w t).1 (tokens_wake w t).2

/-- The current task is woken. -/
theorem wakeCurrent_later (w : World) : Later w w.wakeCurrent := by
  unfold wakeCurrent
  split
  · exact wake_later w _
  · exact Later.refl w

/-- Several tasks are woken. -/
theorem foldl_wake_later {β : Type} (f : β → TaskId) (xs : List β) (w : World) :
    Later w (xs.foldl (fun w x => w.wake (f x)) w) := by
  induction xs generalizing w with
  | nil => exact Later.refl w
  | cons x xs ih => exact (wake_later w (f x)).trans (ih _)

/-- A signal is announced. -/
theorem emit_later (w : World) (s : Signal) : Later w (w.emit s) := by
  have hrest : Later w { w with waiters := w.waiters.filter (·.signal != s) } := Later.of_eq rfl rfl
  exact hrest.trans (foldl_wake_later Waiter.task _ _)

/-- An operation waits for a signal. -/
theorem park_later (w : World) (s : Signal) (op : OperationId) : Later w (w.park s op) := by
  unfold park
  split
  · exact Later.refl w
  · split
    · exact Later.refl w
    · exact Later.of_eq rfl rfl

/-- A timer is started. -/
theorem startTimer_later (w : World) (deadline : Nat) (op : OperationId) : Later w (w.startTimer deadline op) := by
  unfold startTimer
  split
  · exact Later.refl w
  · exact Later.of_eq rfl rfl

/-- An operation is forgotten. -/
theorem forget_later (w : World) (op : OperationId) : Later w (w.forget op) := Later.of_eq rfl rfl

/-- The interest of the current task in an operation is noted. -/
theorem attend_later (w : World) (op : OperationId) : Later w (w.attend op) :=
  Later.modifyOperation w op _ fun _ => rfl

/-- The task that awaits an operation is woken. -/
theorem wakeOperation_later (w : World) (op : OperationId) : Later w (w.wakeOperation op) := by
  unfold wakeOperation
  split
  · exact wake_later w _
  · exact Later.refl w

/-- A gate is opened. -/
theorem openGate_later (w : World) (gate : String) : Later w (w.openGate gate) := by
  unfold openGate
  split
  · exact Later.refl w
  · have hopen : Later w { w with openGates := gate :: w.openGates } := Later.of_eq rfl rfl
    exact hopen.trans (emit_later _ _)

/-! ## What tokens and hooks do -/

/-- A subscription adds one reaction; only one that stops an operation would matter here. -/
theorem subscribe_later (w : World) (t : TokenId) (r : Reaction) (hr : ∀ op, r ≠ .stop op) :
    Later w (w.subscribe t r).2 := by
  unfold subscribe
  split
  · exact Later.refl w
  · split
    · exact Later.refl w
    · refine Later.modifyToken w t _ (fun _ h => h) fun x key op h => ?_
      rcases List.mem_append.mp h with h | h
      · exact h
      · rw [List.mem_singleton] at h
        exact absurd (Prod.mk.inj h).2.symm (hr op)

/-- A subscription is dropped. -/
theorem unsubscribe_later (w : World) (s : Subscription) : Later w (w.unsubscribe s) :=
  Later.modifyToken w s.token _ (fun _ h => h) fun _ _ _ h => (List.mem_filter.mp h).1

/-- Code withdraws a listener. -/
theorem withdraw_later (w : World) (s : Subscription) : Later w (w.withdraw s) :=
  Later.modifyToken w s.token _ (fun _ h => h) fun _ _ _ h => (List.mem_filter.mp h).1

/-- Code adds a hook to an operation. -/
theorem addHook_later (w : World) (op : OperationId) (l : Listener) : Later w (w.addHook op l).2 := by
  unfold addHook
  split
  · exact Later.refl w
  · exact Later.modifyOperation w op _ fun _ => rfl

/-- A token that trips is tripped from then on; what it gives out are the reactions that it held. -/
theorem trip?_spec {w w' : World} {t : TokenId} {reactions : List Reaction} (h : w.trip? t = some (reactions, w')) :
    Later w w' ∧ w'.isInterrupted t = true ∧ ∀ op, .stop op ∈ reactions → w.Stops t op := by
  unfold trip? at h
  split at h
  · nomatch h
  · rename_i token ht
    split at h
    · nomatch h
    · simp only [Option.some.injEq, Prod.mk.injEq] at h
      obtain ⟨rfl, rfl⟩ := h
      have hmod : Later w (w.modifyToken t fun x => { x with interrupted := true, entries := [] }) :=
        Later.modifyToken w t _ (fun _ _ => rfl) fun _ _ _ h => nomatch h
      have hset : (w.modifyToken t fun x => { x with interrupted := true, entries := [] }).isInterrupted t = true := by
        rw [isInterrupted_modifyToken]
        simp [ht]
      have hrest := (emit_later (w.modifyToken t fun x => { x with interrupted := true, entries := [] }) (.token t)).trans
        (record_later _ (.tripped (token.entries.map (·.2)).length))
      refine ⟨hmod.trans hrest, hrest.latched t hset, fun op hop => ?_⟩
      obtain ⟨⟨key, r⟩, hmem, hr⟩ := List.mem_map.mp hop
      exact ⟨token, ht, key, by rwa [← show r = .stop op from hr]⟩

/-- Stopping an operation is something that may happen once a token that holds its stop has been tripped. -/
theorem takeHooks_later {w w' : World} {t : TokenId} {op : OperationId} (h : Later w w') (hs : w.Stops t op)
    (ht : w'.isInterrupted t = true) : Later w (w'.takeHooks op).2 where
  tokens := h.tokens
  operations := by
    simpa [takeHooks, modifyOperation] using h.operations
  latched := h.latched
  stops s o ho := by
    simpa [takeHooks, modifyOperation] using h.stops s o ho
  fired o hlt hf := by
    by_cases ho : op = o
    · subst ho
      exact Or.inr ⟨t, hs, ht⟩
    · apply h.fired o hlt
      simpa [takeHooks, isFired, modifyOperation, Array.getElem?_modify, ho] using hf

end World

/-! ## What callbacks do -/

/-- A way of tripping tokens that leads to later worlds. -/
def Tripping.Forward (trip : Tripping) : Prop := ∀ t w, World.Later w (trip t w)

/-- All that code does, short of tripping tokens, leads to later worlds. -/
theorem World.later_respected : World.Respected World.Later where
  refl := World.Later.refl
  trans _ _ _ := World.Later.trans
  kept _ _ _ _ _ := World.Later.of_eq rfl rfl
  record := World.record_later
  openGate := World.openGate_later
  subscribe w t l := World.subscribe_later w t (.call l) fun _ => nofun
  withdraw := World.withdraw_later
  addHook := World.addHook_later
  park := World.park_later
  startTimer := World.startTimer_later
  wakeCurrent := World.wakeCurrent_later

/-- A listener leads to a later world, whether or not it panics. -/
theorem Listener.invoke_later {trip : Tripping} (ht : trip.Forward) (l : Listener) (w : World) :
    World.Later w (l.invoke trip w) :=
  l.invoke_respects World.later_respected ht w

/-- So do several listeners, one after the other. -/
theorem Listener.foldl_invoke_later {trip : Tripping} (ht : trip.Forward) (ls : List Listener) (w : World) :
    World.Later w (ls.foldl (fun w l => l.invoke trip w) w) :=
  Listener.foldl_invoke_respects World.later_respected ht ls w

/-- A reaction of a token `t` that has been tripped since `w` leads to a world that comes after `w` and in which `t` is still
tripped. -/
theorem Reaction.run_later {trip : Tripping} (ht : trip.Forward) {w w' : World} {t : TokenId} (h : World.Later w w')
    (hint : w'.isInterrupted t = true) (r : Reaction) (hr : ∀ op, r = .stop op → w.Stops t op) :
    World.Later w (r.run trip w') ∧ (r.run trip w').isInterrupted t = true := by
  cases r with
  | call l =>
    have hl := l.invoke_later ht w'
    exact ⟨h.trans hl, hl.latched t hint⟩
  | forward child =>
    have hc := ht child w'
    exact ⟨h.trans hc, hc.latched t hint⟩
  | stop op =>
    have htake := World.takeHooks_later h (hr op rfl) hint
    have hrest := (Listener.foldl_invoke_later ht (w'.takeHooks op).1 (w'.takeHooks op).2).trans
      (World.wakeOperation_later _ op)
    exact ⟨htake.trans hrest, hrest.latched t hint⟩

/-- The reactions that a token has given out lead to a later world, in which it is still tripped, if what they stop was to be
stopped by this token. -/
theorem Reaction.foldl_run_later {trip : Tripping} (ht : trip.Forward) {w w' : World} {t : TokenId}
    (rs : List Reaction) (h : World.Later w w') (hint : w'.isInterrupted t = true)
    (hr : ∀ op, .stop op ∈ rs → w.Stops t op) :
    World.Later w (rs.foldl (fun w r => r.run trip w) w') ∧
      (rs.foldl (fun w r => r.run trip w) w').isInterrupted t = true := by
  induction rs generalizing w' with
  | nil => exact ⟨h, hint⟩
  | cons r rs ih =>
    obtain ⟨hl, hi⟩ := r.run_later ht h hint fun op he => hr op (by simp [he])
    exact ih hl hi fun op hop => hr op (List.mem_cons_of_mem r hop)

namespace World

/-- A trip leads to a later world, however deep it leads. -/
theorem trip_later (n : Nat) (t : TokenId) (w : World) : Later w (trip n t w) := by
  induction n generalizing t w with
  | zero => exact Later.refl w
  | succ n ih =>
    unfold trip
    split
    · exact Later.refl w
    · rename_i reactions w' h
      obtain ⟨hl, hi, hs⟩ := trip?_spec h
      exact (Reaction.foldl_run_later ih reactions hl hi hs).1

/-- Tripping a token leads to a later world. -/
theorem interrupt_later (t : TokenId) (w : World) : Later w (w.interrupt t) := trip_later _ t w

/-- Tripping tokens only goes forward. -/
theorem interrupt_forward : Tripping.Forward interrupt := interrupt_later

/-- A token that is interrupted has been tripped, if there is such a token. -/
theorem isInterrupted_interrupt {w : World} {t : TokenId} (ht : t < w.tokens.size) :
    (w.interrupt t).isInterrupted t = true := by
  unfold interrupt trip
  split
  · rename_i h
    simp only [trip?, Array.getElem?_eq_getElem ht] at h
    split at h
    · rename_i hi
      simp [isInterrupted, ht, hi]
    · nomatch h
  · rename_i reactions w' h
    obtain ⟨hl, hi, hs⟩ := trip?_spec h
    exact (Reaction.foldl_run_later (trip_later _) reactions hl hi hs).2

/-- Any other reaction than one that stops an operation may be registered at any time. -/
theorem react_later (w : World) (t : TokenId) (r : Reaction) (hr : ∀ op, r ≠ .stop op) : Later w (w.react t r).2 := by
  have hs := subscribe_later w t r hr
  unfold react
  split
  · rename_i s w' h
    rwa [h] at hs
  · rename_i w' h
    rw [h] at hs
    cases r with
    | call l => exact hs.trans (l.invoke_later interrupt_forward w')
    | forward child => exact hs.trans (interrupt_later child w')
    | stop op => exact absurd rfl (hr op)

end World

/-- An action leads to a later world. -/
theorem Action.run_later {α : Type} (a : Action α) (w : World) : World.Later w (a.run w).2 :=
  a.run_respects World.later_respected World.interrupt_later w

/-- The poll of a future leads to a later world. -/
theorem Future.poll_later (op : OperationId) (f : Future) (w : World) : World.Later w (f.poll op w).2 :=
  f.poll_respects World.later_respected World.interrupt_later op w

/-! ## Operations that are watched by one token -/

namespace World

/-- Every operation that some token would stop has begun. -/
def Sound (w : World) : Prop := ∀ t op, w.Stops t op → op < w.operations.size

/-- In a world without tokens nothing is to be stopped. -/
theorem sound_of_no_tokens {w : World} (h : w.tokens = #[]) : w.Sound := by
  rintro t op ⟨token, ht, _⟩
  rw [h] at ht
  nomatch ht

/-- What was so of the names in a world stays so in a later one. -/
theorem Later.sound {w w' : World} (h : Later w w') (hw : w.Sound) : w'.Sound := by
  intro t op hs
  rcases h.stops t op hs with hs | ⟨_, hlt⟩
  · exact Nat.lt_of_lt_of_le (hw t op hs) h.operations
  · exact hlt

/-- An operation that has begun, that no token but `t` stops, and that has not been stopped as long as `t` has not been
tripped. -/
structure Watches (w : World) (t : TokenId) (op : OperationId) : Prop where
  begun : op < w.operations.size
  only : ∀ s, w.Stops s op → s = t
  quiet : w.isFired op = true → w.isInterrupted t = true

/-- A token that watches over an operation goes on doing so in a later world. -/
theorem Later.watches {w w' : World} {t : TokenId} {op : OperationId} (h : Later w w') (hw : w.Watches t op) :
    w'.Watches t op where
  begun := Nat.lt_of_lt_of_le hw.begun h.operations
  only s hs := by
    rcases h.stops s op hs with hs | ⟨hle, _⟩
    · exact hw.only s hs
    · exact absurd hw.begun (Nat.not_lt_of_le hle)
  quiet hf := by
    rcases h.fired op hw.begun hf with hf | ⟨s, hs, hi⟩
    · exact h.latched t (hw.quiet hf)
    · rwa [hw.only s hs] at hi

/-- A token that is there and has not been tripped takes a new reaction. -/
theorem react_eq_some {w : World} {t : TokenId} (ht : t < w.tokens.size) (ho : w.isInterrupted t = false) (r : Reaction) :
    ∃ s w', w.react t r = (some s, w') := by
  have hn : w.tokens[t].interrupted = false := by
    simpa [isInterrupted, Array.getElem?_eq_getElem ht] using ho
  refine ⟨{ token := t, key := w.tokens[t].nextKey }, (w.react t r).2, Prod.ext ?_ rfl⟩
  simp [react, subscribe, Array.getElem?_eq_getElem ht, hn]

/-- What has become of the world when a token has taken a new reaction. -/
theorem of_react_eq_some {w w' : World} {t : TokenId} {r : Reaction} {s : Subscription} (h : w.react t r = (some s, w')) :
    w' = w.modifyToken t fun x => { x with nextKey := x.nextKey + 1, entries := x.entries ++ [(x.nextKey, r)] } := by
  unfold react at h
  split at h
  · rename_i s' w'' hs
    obtain rfl := (Prod.mk.inj h).2
    unfold subscribe at hs
    split at hs
    · nomatch hs
    · split at hs
      · nomatch hs
      · exact (Prod.mk.inj hs).2.symm
  · nomatch h

/-- A reaction that is taken in trips nothing. -/
theorem isInterrupted_of_react_eq_some {w w' : World} {t : TokenId} {r : Reaction} {s : Subscription}
    (h : w.react t r = (some s, w')) (u : TokenId) : w'.isInterrupted u = w.isInterrupted u := by
  rw [of_react_eq_some h]
  exact isInterrupted_modifyToken_of_eq w t u fun _ => rfl

/-- What stops an operation after a reaction for `op` has been added to a token. -/
theorem stops_subscribe {w : World} {t s : TokenId} {op o : OperationId}
    (h : (w.modifyToken t fun x => { x with nextKey := x.nextKey + 1, entries := x.entries ++ [(x.nextKey, .stop op)] }).Stops
      s o) : w.Stops s o ∨ s = t ∧ o = op := by
  obtain ⟨token, ht, key, hk⟩ := h
  simp only [modifyToken, Array.getElem?_modify] at ht
  by_cases hs : t = s
  · simp only [hs, if_true, Option.map_eq_some_iff] at ht
    obtain ⟨x, hx, rfl⟩ := ht
    rcases List.mem_append.mp hk with hk | hk
    · exact Or.inl ⟨x, hx, key, hk⟩
    · simp only [List.mem_singleton, Prod.mk.injEq, Reaction.stop.injEq] at hk
      exact Or.inr ⟨hs.symm, hk.2⟩
  · simp only [hs, if_false] at ht
    exact Or.inl ⟨token, ht, key, hk⟩

/-- A token may be told to stop an operation that has begun since `w`. -/
theorem subscribe_stop_later {w w' : World} {op : OperationId} (h : Later w w') (t : TokenId)
    (hle : w.operations.size ≤ op) (hlt : op < w'.operations.size) : Later w (w'.subscribe t (.stop op)).2 := by
  unfold subscribe
  split
  · exact h
  · split
    · exact h
    · exact
        { tokens := by simpa [modifyToken] using h.tokens
          operations := h.operations
          latched := fun s hs => latched_modifyToken t (fun _ hx => hx) (h.latched s hs)
          stops := fun s o hs => by
            rcases stops_subscribe hs with hs | ⟨_, rfl⟩
            · exact h.stops s o hs
            · exact Or.inr ⟨hle, hlt⟩
          fired := fun o ho hf => by
            rcases h.fired o ho hf with hf | ⟨s, hs, hi⟩
            · exact Or.inl hf
            · exact Or.inr ⟨s, hs, latched_modifyToken t (fun _ hx => hx) hi⟩ }

/-- An operation that has begun since `w` may be stopped. -/
theorem takeHooks_new_later {w w' : World} {op : OperationId} (h : Later w w') (hle : w.operations.size ≤ op) :
    Later w (w'.takeHooks op).2 where
  tokens := h.tokens
  operations := by simpa [takeHooks, modifyOperation] using h.operations
  latched := h.latched
  stops s o hs := by simpa [takeHooks, modifyOperation] using h.stops s o hs
  fired o ho hf := by
    have hne : op ≠ o := Nat.ne_of_gt (Nat.lt_of_lt_of_le ho hle)
    apply h.fired o ho
    simpa [takeHooks, isFired, modifyOperation, Array.getElem?_modify, hne] using hf

/-- A new operation that a token is told to stop leads to a later world, whether the token has been tripped or not. -/
theorem react_stop_later (w : World) (t : TokenId) :
    Later w (w.newOperation.2.react t (.stop w.newOperation.1)).2 := by
  have hnew := newOperation_later w
  have hlt : w.newOperation.1 < w.newOperation.2.operations.size := by simp [newOperation]
  have hs : Later w (w.newOperation.2.subscribe t (.stop w.newOperation.1)).2 :=
    subscribe_stop_later hnew t (Nat.le_refl _) hlt
  unfold react
  split
  · rename_i s w' h
    rwa [h] at hs
  · rename_i w' h
    rw [h] at hs
    have htake := takeHooks_new_later hs (Nat.le_refl w.newOperation.1)
    exact (htake.trans (Listener.foldl_invoke_later interrupt_forward _ _)).trans (wakeOperation_later _ _)

/-- A new operation is watched by the token that is told to stop it, if the token has not been tripped yet. -/
theorem watches_react {w w' : World} (hw : w.Sound) {t : TokenId} {s : Subscription}
    (h : w.newOperation.2.react t (.stop w.newOperation.1) = (some s, w')) : w'.Watches t w.newOperation.1 := by
  have hlt : w.newOperation.1 < w.newOperation.2.operations.size := by simp [newOperation]
  rw [of_react_eq_some h]
  exact
    { begun := hlt
      only := fun s hs => by
        rcases stops_subscribe hs with hs | ⟨rfl, _⟩
        · exact absurd (hw s _ hs) (Nat.lt_irrefl _)
        · rfl
      quiet := fun hf => by simp [isFired, newOperation, modifyToken] at hf }

end World

end Interruptible
