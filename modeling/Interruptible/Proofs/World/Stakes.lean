import Mathlib.Data.Finset.Card
import Mathlib.Data.Finset.Range
import Interruptible.Proofs.World.Later

/-!
# What is at stake with a token

The runtime registers two kinds of reactions with a token: a host operation is to be stopped when the token trips, and a group
is to be tripped with it. This module says what becomes of such a registration. As long as its token has not been tripped it
stays where it is; when the token trips it is answered: the token of the group is tripped, or the operation is stopped and the
task that awaits it is woken (`World.Faithful`). Whatever code does is faithful in this sense (`Action.run_acts`,
`Future.poll_acts`), and so is a trip with all that follows from it, since the bound on the depth of trips is never reached
(`World.trip_serving`).
-/

namespace Interruptible

/-- What an interpreter has at stake with a token. -/
inductive Stake where
  /-- A host operation, which the token stops. -/
  | operation (op : OperationId)
  /-- A group, whose token is tripped with this one. -/
  | group (t : TokenId)
deriving DecidableEq, Repr

/-- The reaction by which a stake is registered. -/
def Stake.reaction : Stake → Reaction
  | .operation op => .stop op
  | .group t => .forward t

/-- A reaction of the runtime tells which stake it has been registered for. -/
theorem Stake.reaction_injective {x y : Stake} (h : x.reaction = y.reaction) : x = y := by
  cases x <;> cases y
  · rw [Reaction.stop.inj h]
  · nomatch h
  · nomatch h
  · rw [Reaction.forward.inj h]

/-- Nothing is left out. -/
def Stake.None (_ : Stake) : Prop := False

namespace World

/-- The operation has begun, or the token of the group has been made. -/
def Issued (w : World) : Stake → Prop
  | .operation op => op < w.operations.size
  | .group t => t < w.tokens.size

/-- A subscription has been handed out. -/
def Allotted (w : World) (s : Subscription) : Prop :=
  ∃ token, w.tokens[s.token]? = some token ∧ s.key < token.nextKey

/-- A stake is registered under a subscription. -/
def Registered (w : World) (s : Subscription) (x : Stake) : Prop :=
  ∃ token, w.tokens[s.token]? = some token ∧ (s.key, x.reaction) ∈ token.entries

/-- Subscriptions are handed out before anything is registered under them. -/
def KeysSound (w : World) : Prop := ∀ s x, w.Registered s x → w.Allotted s

/-- A stake is registered, and the token has not been tripped. -/
def Live (w : World) (s : Subscription) (x : Stake) : Prop := w.Registered s x ∧ w.isInterrupted s.token = false

/-- The task that awaits an operation. -/
def awaiter (w : World) (op : OperationId) : Option TaskId := w.operations[op]?.bind (·.task)

/-- A task is ready, or will be when its present poll is over. -/
def Awake (w : World) (t : TaskId) : Prop := t ∈ w.ready ∨ w.current = some t ∧ w.wokenMeanwhile = true

/-- What a token owes a stake has been done. -/
def Answered (w : World) : Stake → Prop
  | .operation op => w.isFired op = true ∧ ∀ t, w.awaiter op = some t → w.Awake t
  | .group t => w.isInterrupted t = true

/-- What can come about in the course of a poll, with exceptions for some stakes: things are only added, latches stay, tasks
that have been woken stay awake, and nothing is registered under a subscription that has been handed out before. -/
structure Onward (except : Stake → Prop) (w w' : World) : Prop where
  tokens : w.tokens.size ≤ w'.tokens.size
  operations : w.operations.size ≤ w'.operations.size
  latched : ∀ t, w.isInterrupted t = true → w'.isInterrupted t = true
  fired : ∀ op, w.isFired op = true → w'.isFired op = true
  awaiter : ∀ op, w.Issued (.operation op) → ¬ except (.operation op) → w'.awaiter op = w.awaiter op
  current : w'.current = w.current
  awake : ∀ t, w.Awake t → w'.Awake t
  allotted : ∀ s, w.Allotted s → w'.Allotted s
  registered : ∀ s x, w'.Registered s x → w.Registered s x ∨ ¬ w.Allotted s ∧ w'.Allotted s

/-- No registration is lost: it is still there, or its token has been tripped and it has been answered. -/
structure Faithful (except : Stake → Prop) (w w' : World) : Prop extends Onward except w w' where
  live : ∀ s x, w.Issued x → ¬ except x → w.Live s x → w'.Live s x ∨ w'.isInterrupted s.token = true ∧ w'.Answered x

/-- What code can do in the course of a poll. -/
structure Acts (w w' : World) : Prop extends Faithful Stake.None w w' where
  tokens_eq : w'.tokens.size = w.tokens.size

/-- What becomes of the tokens when one of them is changed. -/
theorem getElem?_modifyToken (w : World) (t s : TokenId) (f : Token → Token) :
    (w.modifyToken t f).tokens[s]? = if t = s then w.tokens[s]?.map f else w.tokens[s]? := by
  simp only [World.modifyToken, Array.getElem?_modify]

namespace Onward

variable {X Y : Stake → Prop} {w w' w₁ w₂ w₃ : World}

/-- Nothing that has begun or been made is lost. -/
theorem issued (h : Onward X w w') {x : Stake} (hx : w.Issued x) : w'.Issued x := by
  cases x with
  | operation op => exact Nat.lt_of_lt_of_le hx h.operations
  | group t => exact Nat.lt_of_lt_of_le hx h.tokens

/-- What a token owed a stake stays done, if the stake is none of the exceptions. -/
theorem answered (h : Onward X w w') {x : Stake} (hi : w.Issued x) (hx : ¬ X x) (ha : w.Answered x) : w'.Answered x := by
  cases x with
  | operation op =>
    refine ⟨h.fired op ha.1, fun t ht => h.awake t (ha.2 t ?_)⟩
    rw [← h.awaiter op hi hx, ht]
  | group t => exact h.latched t ha

/-- Subscriptions go on being handed out before anything is registered under them. -/
theorem keysSound (h : Onward X w w') (hw : w.KeysSound) : w'.KeysSound := by
  intro s x hr
  rcases h.registered s x hr with hr | ⟨-, ha⟩
  · exact h.allotted s (hw s x hr)
  · exact ha

/-- One thing after another. What is excepted later must have been excepted at first, unless it came up in between. -/
theorem trans (h : Onward X w₁ w₂) (h' : Onward Y w₂ w₃) (hY : ∀ x, w₁.Issued x → Y x → X x) : Onward X w₁ w₃ where
  tokens := Nat.le_trans h.tokens h'.tokens
  operations := Nat.le_trans h.operations h'.operations
  latched t ht := h'.latched t (h.latched t ht)
  fired op ho := h'.fired op (h.fired op ho)
  awaiter op hi hx := by
    rw [h'.awaiter op (h.issued hi) fun hy => hx (hY _ hi hy), h.awaiter op hi hx]
  current := h'.current.trans h.current
  awake t ht := h'.awake t (h.awake t ht)
  allotted s hs := h'.allotted s (h.allotted s hs)
  registered s x hr := by
    rcases h'.registered s x hr with hr | ⟨hn, ha⟩
    · rcases h.registered s x hr with hr | ⟨hn, ha⟩
      · exact .inl hr
      · exact .inr ⟨hn, h'.allotted s ha⟩
    · exact .inr ⟨fun ha => hn (h.allotted s ha), ha⟩

/-- A change to a token that does not reset its latch, and that registers something under new subscriptions only. -/
theorem modifyToken {t : TokenId} {f : Token → Token} (hf : ∀ x, x.interrupted = true → (f x).interrupted = true)
    (hk : ∀ x, x.nextKey ≤ (f x).nextKey)
    (hnew : ∀ x key (y : Stake), (key, y.reaction) ∈ (f x).entries →
      (key, y.reaction) ∈ x.entries ∨ x.nextKey ≤ key ∧ key < (f x).nextKey) :
    Onward X w (w.modifyToken t f) where
  tokens := by simp [World.modifyToken]
  operations := Nat.le_refl _
  latched _ h := latched_modifyToken t hf h
  fired _ h := h
  awaiter _ _ _ := rfl
  current := rfl
  awake _ h := h
  allotted s h := by
    obtain ⟨x, hx, hlt⟩ := h
    by_cases hs : t = s.token
    · exact ⟨f x, by rw [getElem?_modifyToken, if_pos hs, hx]; rfl, Nat.lt_of_lt_of_le hlt (hk x)⟩
    · exact ⟨x, by rw [getElem?_modifyToken, if_neg hs, hx], hlt⟩
  registered s y h := by
    obtain ⟨x, hx, hmem⟩ := h
    rw [getElem?_modifyToken] at hx
    split at hx
    · rename_i hs
      obtain ⟨x', hx', rfl⟩ := Option.map_eq_some_iff.mp hx
      rcases hnew x' _ y hmem with hmem | ⟨hle, hlt⟩
      · exact .inl ⟨x', hx', hmem⟩
      · refine .inr ⟨?_, f x', by rw [getElem?_modifyToken, if_pos hs, hx']; rfl, hlt⟩
        rintro ⟨x'', hx'', hlt'⟩
        obtain rfl := Option.some.inj (hx'.symm.trans hx'')
        exact absurd hlt' (Nat.not_lt_of_le hle)
    · exact .inl ⟨x, hx, hmem⟩

end Onward

namespace Faithful

variable {X Y : Stake → Prop} {w w' w₁ w₂ w₃ : World}

theorem trans (h : Faithful X w₁ w₂) (h' : Faithful Y w₂ w₃) (hY : ∀ x, w₁.Issued x → Y x → X x) : Faithful X w₁ w₃ where
  toOnward := h.toOnward.trans h'.toOnward hY
  live s x hi hx hl := by
    have hy : ¬ Y x := fun hy => hx (hY x hi hy)
    rcases h.live s x hi hx hl with hl | ⟨ht, ha⟩
    · exact h'.live s x (h.issued hi) hy hl
    · exact .inr ⟨h'.latched _ ht, h'.answered (h.issued hi) hy ha⟩

theorem mono (h : Faithful X w w') (hX : ∀ x, w.Issued x → X x → Y x) : Faithful Y w w' where
  tokens := h.tokens
  operations := h.operations
  latched := h.latched
  fired := h.fired
  awaiter op hi hy := h.awaiter op hi fun hx => hy (hX _ hi hx)
  current := h.current
  awake := h.awake
  allotted := h.allotted
  registered := h.registered
  live s x hi hy := h.live s x hi fun hx => hy (hX x hi hx)

/-- A world with the same tokens and operations, in which the same task is being polled and no task has gone to sleep. -/
theorem of_eq (ht : w'.tokens = w.tokens) (ho : w'.operations = w.operations) (hc : w'.current = w.current)
    (ha : ∀ t, w.Awake t → w'.Awake t) : Faithful X w w' where
  tokens := Nat.le_of_eq (by rw [ht])
  operations := Nat.le_of_eq (by rw [ho])
  latched t h := by simpa only [isInterrupted, ht] using h
  fired op h := by simpa only [isFired, ho] using h
  awaiter op _ _ := by simp only [World.awaiter, ho]
  current := hc
  awake := ha
  allotted s h := by simpa only [Allotted, ht] using h
  registered s x h := .inl (by simpa only [Registered, ht] using h)
  live s x _ _ h := .inl (by simpa only [Live, Registered, isInterrupted, ht] using h)

theorem refl (X : Stake → Prop) (w : World) : Faithful X w w := of_eq rfl rfl rfl fun _ h => h

/-- A change to a token that leaves its latch alone. What is added is registered under new subscriptions, and what is removed
belongs to the exceptions. -/
theorem modifyToken {t : TokenId} {f : Token → Token} (hf : ∀ x, (f x).interrupted = x.interrupted)
    (hk : ∀ x, x.nextKey ≤ (f x).nextKey)
    (hnew : ∀ x key (y : Stake), (key, y.reaction) ∈ (f x).entries →
      (key, y.reaction) ∈ x.entries ∨ x.nextKey ≤ key ∧ key < (f x).nextKey)
    (hold : ∀ x key (y : Stake), w.tokens[t]? = some x → ¬ X y → (key, y.reaction) ∈ x.entries →
      (key, y.reaction) ∈ (f x).entries) :
    Faithful X w (w.modifyToken t f) where
  toOnward := .modifyToken (fun x h => by rwa [hf]) hk hnew
  live s y _ hy hl := by
    obtain ⟨⟨x, hx, hmem⟩, ht⟩ := hl
    have hsame := isInterrupted_modifyToken_of_eq w t s.token hf
    refine .inl ⟨?_, by rwa [hsame]⟩
    by_cases hs : t = s.token
    · refine ⟨f x, by rw [getElem?_modifyToken, if_pos hs, hx]; rfl, hold x _ y ?_ hy hmem⟩
      rw [hs, hx]
    · exact ⟨x, by rw [getElem?_modifyToken, if_neg hs, hx], hmem⟩

/-- A change to an operation that does not take back that it has been stopped, and that changes the awaiting task of an
exception at most. -/
theorem modifyOperation {op : OperationId} {f : Operation → Operation} (hf : ∀ x, x.fired = true → (f x).fired = true)
    (ht : ¬ X (.operation op) → ∀ x, (f x).task = x.task) : Faithful X w (w.modifyOperation op f) where
  tokens := Nat.le_refl _
  operations := by simp [World.modifyOperation]
  latched _ h := h
  fired o h := by
    simp only [isFired, World.modifyOperation, Array.getElem?_modify] at h ⊢
    by_cases ho : op = o
    · cases hx : w.operations[o]? with
      | none => simp [hx] at h
      | some x =>
        simp only [hx, Option.map_some, Option.getD_some] at h
        simpa [ho, hx] using hf x h
    · simpa [ho] using h
  awaiter o _ hx := by
    simp only [World.awaiter, World.modifyOperation, Array.getElem?_modify]
    by_cases ho : op = o
    · subst ho
      cases hx' : w.operations[op]? with
      | none => simp
      | some x => simp [ht hx x]
    · simp [ho]
  current := rfl
  awake _ h := h
  allotted _ h := h
  registered _ _ h := .inl h
  live _ _ _ _ h := .inl h

end Faithful

/-! ## Waking tasks -/

/-- Whoever is awake stays so when some task is woken. -/
theorem Awake.wake {w : World} {t : TaskId} (h : w.Awake t) (u : TaskId) : (w.wake u).Awake t := by
  unfold World.wake
  split
  · exact h.imp_right fun h => ⟨h.1, rfl⟩
  · split
    · exact h
    · exact h.imp_left (List.mem_append_left _)

/-- A task that has been woken is awake. -/
theorem awake_wake (w : World) (t : TaskId) : (w.wake t).Awake t := by
  unfold wake
  split
  · rename_i h
    exact .inr ⟨h, rfl⟩
  · split
    · rename_i h
      exact .inl (List.contains_iff_mem.mp h)
    · exact .inl (List.mem_append_right _ List.mem_cons_self)

/-- So is the task that is being polled, when it is woken. -/
theorem awake_wakeCurrent {w : World} {t : TaskId} (h : w.current = some t) : w.wakeCurrent.Awake t := by
  unfold wakeCurrent
  rw [h]
  exact awake_wake w t

/-- Waking a task does not change which one is being polled. -/
theorem current_wake (w : World) (t : TaskId) : (w.wake t).current = w.current := by
  unfold wake
  split
  · rfl
  · split <;> rfl

/-- Waking an operation wakes the task that awaits it. -/
theorem wakeOperation_eq {w : World} {op : OperationId} {t : TaskId} (h : w.awaiter op = some t) :
    w.wakeOperation op = w.wake t := by
  obtain ⟨x, hx, ht⟩ := Option.bind_eq_some_iff.mp h
  unfold wakeOperation
  rw [hx]
  obtain ⟨fired, hooks, task⟩ := x
  obtain rfl : task = some t := ht
  rfl

namespace Acts

variable {w w' w₁ w₂ w₃ : World}

/-- Where tokens and operations stay as they are and nobody goes to sleep, nothing is lost. -/
theorem of_eq (ht : w'.tokens = w.tokens) (ho : w'.operations = w.operations) (hc : w'.current = w.current)
    (ha : ∀ t, w.Awake t → w'.Awake t) : Acts w w' where
  toFaithful := .of_eq ht ho hc ha
  tokens_eq := by rw [ht]

theorem refl (w : World) : Acts w w := of_eq rfl rfl rfl fun _ h => h

theorem trans (h : Acts w₁ w₂) (h' : Acts w₂ w₃) : Acts w₁ w₃ where
  toFaithful := h.toFaithful.trans h'.toFaithful fun _ _ h => h
  tokens_eq := h'.tokens_eq.trans h.tokens_eq

/-- A task is woken. -/
theorem wake (w : World) (t : TaskId) : Acts w (w.wake t) :=
  of_eq (tokens_wake w t).1 (tokens_wake w t).2 (current_wake w t) fun _ h => h.wake t

/-- Several tasks are woken. -/
theorem foldl_wake {β : Type} (f : β → TaskId) (xs : List β) (w : World) :
    Acts w (xs.foldl (fun w x => w.wake (f x)) w) := by
  induction xs generalizing w with
  | nil => exact refl w
  | cons x xs ih => exact (wake w (f x)).trans (ih _)

/-- A signal wakes those who wait for it. -/
theorem emit (w : World) (s : Signal) : Acts w (w.emit s) := by
  have hrest : Acts w { w with waiters := w.waiters.filter (·.signal != s) } := of_eq rfl rfl rfl fun _ h => h
  exact hrest.trans (foldl_wake Waiter.task _ _)

/-- A record is written. -/
theorem record (w : World) (r : Record) : Acts w (w.record r) := of_eq rfl rfl rfl fun _ h => h

/-- A gate is opened. -/
theorem openGate (w : World) (g : String) : Acts w (w.openGate g) := by
  unfold World.openGate
  split
  · exact refl w
  · have hopen : Acts w { w with openGates := g :: w.openGates } := of_eq rfl rfl rfl fun _ h => h
    exact hopen.trans (emit _ _)

/-- The current task is woken. -/
theorem wakeCurrent (w : World) : Acts w w.wakeCurrent := by
  unfold World.wakeCurrent
  split
  · exact wake w _
  · exact refl w

/-- The task that awaits an operation is woken. -/
theorem wakeOperation (w : World) (op : OperationId) : Acts w (w.wakeOperation op) := by
  unfold World.wakeOperation
  split
  · exact wake w _
  · exact refl w

/-- An operation waits for a signal. -/
theorem park (w : World) (s : Signal) (op : OperationId) : Acts w (w.park s op) := by
  unfold World.park
  split
  · exact refl w
  · split
    · exact refl w
    · exact of_eq rfl rfl rfl fun _ h => h

/-- A timer is started. -/
theorem startTimer (w : World) (deadline : Nat) (op : OperationId) : Acts w (w.startTimer deadline op) := by
  unfold World.startTimer
  split
  · exact refl w
  · exact of_eq rfl rfl rfl fun _ h => h

/-- The clock is moved, and the timers that are due wake their tasks. -/
theorem advanceTo (w : World) (time : Nat) : Acts w (w.advanceTo time) := by
  have hrest : Acts w { w with now := time, timers := w.timers.filter (time < ·.deadline) } := of_eq rfl rfl rfl fun _ h => h
  exact hrest.trans (foldl_wake Timer.task _ _)

/-- An operation is given up by those who would wake it. -/
theorem forget (w : World) (op : OperationId) : Acts w (w.forget op) := of_eq rfl rfl rfl fun _ h => h

/-- Code registers a listener under a new subscription. -/
theorem subscribe (w : World) (t : TokenId) (l : Listener) : Acts w (w.subscribe t (.call l)).2 := by
  unfold World.subscribe
  split
  · exact refl w
  · split
    · exact refl w
    · refine ⟨.modifyToken (fun _ => rfl) (fun _ => Nat.le_succ _) (fun x key y h => ?_)
        (fun x key y _ _ h => List.mem_append_left _ h), by simp [World.modifyToken]⟩
      rcases List.mem_append.mp h with h | h
      · exact .inl h
      · cases y <;> cases (Prod.mk.inj (List.mem_singleton.mp h)).2

/-- Code withdraws a listener; what the runtime has registered is not for code to remove. -/
theorem withdraw (w : World) (s : Subscription) : Acts w (w.withdraw s) where
  toFaithful := .modifyToken (fun _ => rfl) (fun _ => Nat.le_refl _) (fun _ _ _ h => .inl (List.mem_filter.mp h).1)
    fun x key y _ _ h => by
      refine List.mem_filter.mpr ⟨h, ?_⟩
      cases y <;> simp [Stake.reaction, Reaction.isListener]
  tokens_eq := by simp [World.withdraw, World.modifyToken]

/-- Code adds a hook to an operation. -/
theorem addHook (w : World) (op : OperationId) (l : Listener) : Acts w (w.addHook op l).2 := by
  unfold World.addHook
  split
  · exact refl w
  · exact { toFaithful := .modifyOperation (fun _ h => h) fun _ _ => rfl, tokens_eq := rfl }

/-- The hooks of an operation are taken. -/
theorem takeHooks (w : World) (op : OperationId) : Acts w (w.takeHooks op).2 :=
  { toFaithful := .modifyOperation (fun _ _ => rfl) fun _ _ => rfl, tokens_eq := rfl }

end Acts

/-- All that code does, short of tripping tokens, is among these. -/
theorem acts_respected : Respected Acts where
  refl := Acts.refl
  trans _ _ _ := Acts.trans
  kept _ _ _ _ _ := Acts.of_eq rfl rfl rfl fun _ h => h
  record := Acts.record
  openGate := Acts.openGate
  subscribe := Acts.subscribe
  withdraw := Acts.withdraw
  addHook := Acts.addHook
  park := Acts.park
  startTimer := Acts.startTimer
  wakeCurrent := Acts.wakeCurrent

/-! ## Trips -/

/-- How many tokens have not been tripped. -/
def untripped (w : World) : Nat := ((Finset.range w.tokens.size).filter fun t => w.isInterrupted t = false).card

/-- There are no more tokens to be tripped than tokens. -/
theorem untripped_le_size (w : World) : w.untripped ≤ w.tokens.size :=
  (Finset.card_filter_le _ _).trans (Finset.card_range _).le

/-- As long as latches stay, there are no more tokens to be tripped than before. -/
theorem untripped_le {w w' : World} (hs : w'.tokens.size = w.tokens.size)
    (hl : ∀ t, w.isInterrupted t = true → w'.isInterrupted t = true) : w'.untripped ≤ w.untripped := by
  refine Finset.card_le_card fun t ht => ?_
  rw [Finset.mem_filter] at ht ⊢
  refine ⟨by rw [← hs]; exact ht.1, ?_⟩
  cases hw : w.isInterrupted t with
  | false => rfl
  | true => exact absurd (hl t hw) (by rw [ht.2]; nofun)

/-- A token that trips makes one less of those that have not been tripped. -/
theorem untripped_lt {w w' : World} (hs : w'.tokens.size = w.tokens.size)
    (hl : ∀ t, w.isInterrupted t = true → w'.isInterrupted t = true) {t : TokenId} (hlt : t < w.tokens.size)
    (ht : w.isInterrupted t = false) (ht' : w'.isInterrupted t = true) : w'.untripped < w.untripped := by
  refine Finset.card_lt_card ⟨?_, fun hsub => ?_⟩
  · intro u hu
    rw [Finset.mem_filter] at hu ⊢
    refine ⟨by rw [← hs]; exact hu.1, ?_⟩
    cases hw : w.isInterrupted u with
    | false => rfl
    | true => exact absurd (hl u hw) (by rw [hu.2]; nofun)
  · have hmem := hsub (Finset.mem_filter.mpr ⟨Finset.mem_range.mpr hlt, ht⟩)
    rw [Finset.mem_filter, ht'] at hmem
    nomatch hmem.2

/-- What a token that trips gives out are the reactions registered with it; the others stay where they are. -/
structure GivesOut (w : World) (t : TokenId) (reactions : List Reaction) (w' : World) : Prop extends Onward Stake.None w w' where
  tokens_eq : w'.tokens.size = w.tokens.size
  there : t < w.tokens.size
  before : w.isInterrupted t = false
  after : w'.isInterrupted t = true
  given : ∀ s x, s.token = t → w.Registered s x → x.reaction ∈ reactions
  others : ∀ s x, w.Issued x → s.token ≠ t → w.Live s x → w'.Live s x ∨ w'.isInterrupted s.token = true ∧ w'.Answered x

/-- A token that trips gives out all that is registered with it. -/
theorem trip?_gives {w w' : World} {t : TokenId} {reactions : List Reaction} (h : w.trip? t = some (reactions, w')) :
    w.GivesOut t reactions w' := by
  unfold trip? at h
  split at h
  · nomatch h
  · rename_i token ht
    split at h
    · nomatch h
    · rename_i hi
      simp only [Option.some.injEq, Prod.mk.injEq] at h
      obtain ⟨rfl, rfl⟩ := h
      let latch : Token → Token := fun x => { x with interrupted := true, entries := [] }
      have hmod : Onward Stake.None w (w.modifyToken t latch) :=
        .modifyToken (fun _ _ => rfl) (fun _ => Nat.le_refl _) fun _ _ _ h => nomatch h
      have hrest : Acts (w.modifyToken t latch)
          (((w.modifyToken t latch).emit (.token t)).record (.tripped (token.entries.map (·.2)).length)) :=
        (Acts.emit _ _).trans (Acts.record _ _)
      exact
        { toOnward := hmod.trans hrest.toOnward fun _ _ h => h
          tokens_eq := by rw [hrest.tokens_eq]; simp [modifyToken]
          there := (Array.getElem?_eq_some_iff.mp ht).1
          before := by simpa [isInterrupted, ht] using hi
          after := hrest.latched t (by rw [isInterrupted_modifyToken]; simp [ht, latch])
          given := fun s x hs hr => by
            obtain ⟨token', ht', hmem⟩ := hr
            rw [hs, ht] at ht'
            obtain rfl := Option.some.inj ht'
            exact List.mem_map.mpr ⟨_, hmem, rfl⟩
          others := fun s x hx hs hl => by
            refine hrest.live s x (hmod.issued hx) id ⟨?_, ?_⟩
            · obtain ⟨token', ht', hmem⟩ := hl.1
              exact ⟨token', by rw [getElem?_modifyToken, if_neg fun h => hs h.symm, ht'], hmem⟩
            · rw [isInterrupted_modifyToken, if_neg fun h => hs h.symm]
              exact hl.2 }

end World

/-- A way of tripping tokens that answers what is registered with them, as long as fewer than so many tokens are left to be
tripped. -/
structure Tripping.Serving (n : Nat) (trip : Tripping) : Prop where
  acts : ∀ t w, w.untripped < n → World.Acts w (trip t w)
  trips : ∀ t w, w.untripped < n → t < w.tokens.size → (trip t w).isInterrupted t = true

/-- What code does leaves no more tokens to be tripped. -/
theorem World.Acts.untripped_lt {n : Nat} {w w' : World} (h : w.Acts w') (hn : w.untripped < n) : w'.untripped < n :=
  Nat.lt_of_le_of_lt (World.untripped_le h.tokens_eq h.latched) hn

/-- What code does as long as fewer than so many tokens are left to be tripped. -/
theorem World.acts_respected_of_untripped (n : Nat) : World.Respected fun w w' => w.untripped < n → World.Acts w w' where
  refl w _ := .refl w
  trans _ _ _ h h' hn := (h hn).trans (h' ((h hn).untripped_lt hn))
  kept w _ _ _ _ _ := acts_respected.kept w _ _ _ _
  record w r _ := .record w r
  openGate w g _ := .openGate w g
  subscribe w t l _ := .subscribe w t l
  withdraw w s _ := .withdraw w s
  addHook w op l _ := .addHook w op l
  park w s op _ := .park w s op
  startTimer w deadline op _ := .startTimer w deadline op
  wakeCurrent w _ := .wakeCurrent w

section

variable {n : Nat} {trip : Tripping} (ht : trip.Serving n)

include ht

/-- An operation is stopped, and the task that awaits it is woken. -/
theorem Reaction.stop_serving (op : OperationId) (w : World) (hn : w.untripped < n) :
    World.Acts w ((Reaction.stop op).run trip w) ∧
      (w.Issued (.operation op) → ((Reaction.stop op).run trip w).Answered (.operation op)) := by
  have htake := World.Acts.takeHooks w op
  have hinvoke : World.Acts (w.takeHooks op).2 ((w.takeHooks op).1.foldl (fun w l => l.invoke trip w) (w.takeHooks op).2) :=
    Listener.foldl_invoke_respects (World.acts_respected_of_untripped n) ht.acts _ _ (htake.untripped_lt hn)
  have hwake := World.Acts.wakeOperation
    ((w.takeHooks op).1.foldl (fun w l => l.invoke trip w) (w.takeHooks op).2) op
  refine ⟨(htake.trans hinvoke).trans hwake, fun hi => ⟨?_, fun t hawaiter => ?_⟩⟩
  · have hi : op < w.operations.size := hi
    have hfired : (w.takeHooks op).2.isFired op = true := by
      simp only [World.takeHooks, World.isFired, World.modifyOperation, Array.getElem?_modify, if_true,
        Array.getElem?_eq_getElem hi]
      rfl
    exact hwake.fired op (hinvoke.fired op hfired)
  · simp only [Reaction.run] at hawaiter ⊢
    rw [hwake.awaiter op (hinvoke.issued (htake.issued hi)) id] at hawaiter
    rw [World.wakeOperation_eq hawaiter]
    exact World.awake_wake _ t

/-- A reaction of the runtime answers the stake that it was registered for. -/
theorem Reaction.run_serving (r : Reaction) (w : World) (hn : w.untripped < n) :
    World.Acts w (r.run trip w) ∧ ∀ x : Stake, x.reaction = r → w.Issued x → (r.run trip w).Answered x := by
  cases r with
  | call l =>
    refine ⟨l.invoke_respects (World.acts_respected_of_untripped n) ht.acts w hn, fun x hx => ?_⟩
    cases x <;> nomatch hx
  | forward child =>
    refine ⟨ht.acts child w hn, fun x hx hi => ?_⟩
    cases x with
    | operation op => nomatch hx
    | group t =>
      obtain rfl := Reaction.forward.inj hx
      exact ht.trips t w hn hi
  | stop op =>
    refine ⟨(Reaction.stop_serving ht op w hn).1, fun x hx hi => ?_⟩
    cases x with
    | group t => nomatch hx
    | operation op' =>
      obtain rfl := Reaction.stop.inj hx
      exact (Reaction.stop_serving ht op' w hn).2 hi

/-- The reactions that a token gives out answer the stakes that they were registered for. -/
theorem Reaction.foldl_run_serving (rs : List Reaction) (w : World) (hn : w.untripped < n) :
    World.Acts w (rs.foldl (fun w r => r.run trip w) w) ∧
      ∀ x : Stake, x.reaction ∈ rs → w.Issued x → (rs.foldl (fun w r => r.run trip w) w).Answered x := by
  induction rs generalizing w with
  | nil => exact ⟨.refl w, fun x hx => nomatch hx⟩
  | cons r rs ih =>
    obtain ⟨hfirst, hanswered⟩ := r.run_serving ht w hn
    obtain ⟨hrest, hlater⟩ := ih _ (hfirst.untripped_lt hn)
    refine ⟨hfirst.trans hrest, fun x hx hi => ?_⟩
    rcases List.mem_cons.mp hx with hx | hx
    · exact hrest.answered (hfirst.issued hi) id (hanswered x hx hi)
    · exact hlater x hx (hfirst.issued hi)

end

namespace World

/-- What follows from a token's giving out its reactions. -/
theorem GivesOut.acts {n : Nat} {trip : Tripping} (ht : trip.Serving n) {w w' : World} {t : TokenId}
    {reactions : List Reaction} (h : w.GivesOut t reactions w') (hn : w.untripped < n + 1) :
    w.Acts (reactions.foldl (fun w r => r.run trip w) w') ∧
      (reactions.foldl (fun w r => r.run trip w) w').isInterrupted t = true := by
  have hless : w'.untripped < n :=
    Nat.lt_of_lt_of_le (World.untripped_lt h.tokens_eq h.latched h.there h.before h.after) (Nat.le_of_lt_succ hn)
  obtain ⟨hrest, hanswered⟩ := Reaction.foldl_run_serving ht reactions w' hless
  have htripped := hrest.latched t h.after
  refine ⟨⟨⟨h.toOnward.trans hrest.toOnward fun _ _ h => h, fun s x hi hx hl => ?_⟩, ?_⟩, htripped⟩
  · by_cases hs : s.token = t
    · exact .inr ⟨by rwa [hs], hanswered x (h.given s x hs hl.1) (h.issued hi)⟩
    · rcases h.others s x hi hs hl with hl | ⟨hst, ha⟩
      · exact hrest.live s x (h.issued hi) id hl
      · exact .inr ⟨hrest.latched _ hst, hrest.answered (h.issued hi) id ha⟩
  · rw [hrest.tokens_eq, h.tokens_eq]

/-- The bound on the depth of trips is not reached as long as fewer tokens are left to be tripped. -/
theorem trip_serving (n : Nat) : Tripping.Serving n fun t w => trip n t w := by
  induction n with
  | zero => exact ⟨fun _ _ hn => absurd hn (Nat.not_lt_zero _), fun _ _ hn => absurd hn (Nat.not_lt_zero _)⟩
  | succ n ih =>
    constructor
    · intro t w hn
      simp only [trip]
      split
      · exact .refl w
      · rename_i reactions w' h
        exact ((trip?_gives h).acts ih hn).1
    · intro t w hn ht
      simp only [trip]
      split
      · rename_i h
        simp only [trip?, Array.getElem?_eq_getElem ht] at h
        split at h
        · rename_i hi
          simp [isInterrupted, ht, hi]
        · cases h
      · rename_i reactions w' h
        exact ((trip?_gives h).acts ih hn).2

/-- Tripping a token, with all that follows from it, is something that code can do. -/
theorem interrupt_acts (t : TokenId) (w : World) : w.Acts (w.interrupt t) :=
  (trip_serving _).acts t w (Nat.lt_succ_of_le w.untripped_le_size)

/-- It answers what is registered with the token, however many tokens are left to be tripped. -/
theorem interrupt_serving (n : Nat) : Tripping.Serving n interrupt where
  acts t w _ := interrupt_acts t w
  trips _ _ _ ht := isInterrupted_interrupt ht

end World

/-- Whatever an action does, code can do. -/
theorem Action.run_acts {α : Type} (a : Action α) (w : World) : w.Acts (a.run w).2 :=
  a.run_respects World.acts_respected World.interrupt_acts w

/-- Whatever the poll of a future does, code can do. -/
theorem Future.poll_acts (op : OperationId) (f : Future) (w : World) : w.Acts (f.poll op w).2 :=
  f.poll_respects World.acts_respected World.interrupt_acts op w

end Interruptible
