import Mathlib.Algebra.Order.Group.Multiset
import Interruptible.Proofs.World.Events
import Interruptible.Proofs.World.Holding

/-!
# Hooks and what becomes of them

What happens while code runs accounts for the state of tokens (`World.Accounts`): a token has been tripped if it was tripped
before or trips meanwhile, and nothing is registered that would stop an operation. As to the hooks of an operation, code serves
them (`World.Serves`): each hook that is handed to the operation is invoked once or waits, none is invoked before the operation
is stopped, and a hook that is handed over afterwards is invoked at once.
-/

namespace Interruptible

namespace HostEvent

/-- The hook that is handed to an operation. -/
def registered? (op : OperationId) : HostEvent → Option Listener
  | .registered o l => if o = op then some l else none
  | _ => none

/-- The hook of an operation that is invoked. -/
def invoked? (op : OperationId) : HostEvent → Option Listener
  | .invoked o l => if o = op then some l else none
  | _ => none

/-- Something that happens in one of two parts, and what happens before it. -/
theorem getElem?_append_cases {es es' : List HostEvent} {i : Nat} {e : HostEvent} (h : (es ++ es')[i]? = some e) :
    (i < es.length ∧ es[i]? = some e ∧ (es ++ es').take i = es.take i) ∨
      (es.length ≤ i ∧ es'[i - es.length]? = some e ∧ (es ++ es').take i = es ++ es'.take (i - es.length)) := by
  by_cases hlt : i < es.length
  · rw [List.getElem?_append_left hlt] at h
    exact .inl ⟨hlt, h, List.take_append_of_le_length (Nat.le_of_lt hlt)⟩
  · have hle := Nat.le_of_not_lt hlt
    rw [List.getElem?_append_right hle] at h
    exact .inr ⟨hle, h, by rw [List.take_append, List.take_of_length_le hle]⟩

/-- Whether something is done by code, or follows from what code does. -/
def isCode : HostEvent → Bool
  | .called _ | .polled _ | .resolved _ => false
  | _ => true

end HostEvent

namespace World

variable {w w' w₁ w₂ w₃ : World} {es es' : List HostEvent} {op o : OperationId}

/-- The hooks that wait for an operation to be stopped. -/
def waitingHooks (w : World) (op : OperationId) : List Listener := (w.operations[op]?.map (·.hooks)).getD []

theorem waitingHooks_modifyOperation (w : World) (o op : OperationId) (f : Operation → Operation) :
    (w.modifyOperation o f).waitingHooks op =
      if o = op then (w.operations[op]?.map fun x => (f x).hooks).getD [] else w.waitingHooks op := by
  simp only [waitingHooks, modifyOperation, Array.getElem?_modify]
  by_cases h : o = op
  · simp [h, Function.comp_def]
  · simp [h]

theorem size_modifyOperation (w : World) (o : OperationId) (f : Operation → Operation) :
    (w.modifyOperation o f).operations.size = w.operations.size := by simp [modifyOperation]

theorem isFired_modifyOperation (w : World) (o op : OperationId) (f : Operation → Operation) :
    (w.modifyOperation o f).isFired op =
      if o = op then (w.operations[op]?.map fun x => (f x).fired).getD false else w.isFired op := by
  simp only [isFired, modifyOperation, Array.getElem?_modify]
  by_cases h : o = op
  · simp [h, Function.comp_def]
  · simp [h]

/-! ## Tokens -/

/-- What has happened accounts for the state of the tokens, and no token has been told to stop an operation. -/
structure Accounts (op : OperationId) (w : World) (es : List HostEvent) (w' : World) : Prop where
  operations : w.operations.size ≤ w'.operations.size
  tripped : ∀ t, w'.isInterrupted t = true ↔ w.isInterrupted t = true ∨ .tripped t ∈ es
  registered : ∀ s, w'.Registered s (.operation op) → w.Registered s (.operation op)
  code : ∀ e ∈ es, e.isCode = true

theorem Accounts.trans (h : Accounts op w₁ es w₂) (h' : Accounts op w₂ es' w₃) : Accounts op w₁ (es ++ es') w₃ where
  operations := Nat.le_trans h.operations h'.operations
  tripped t := by rw [h'.tripped, h.tripped, List.mem_append, or_assoc]
  registered s hr := h.registered s (h'.registered s hr)
  code e he := (List.mem_append.mp he).elim (h.code e) (h'.code e)

/-- Something has happened to an operation at most. -/
theorem Accounts.operation {e : HostEvent} (ht : w'.tokens = w.tokens) (ho : w'.operations.size = w.operations.size)
    (he : e.isCode = true) (hn : ∀ t, e ≠ .tripped t) : Accounts op w [e] w' where
  operations := Nat.le_of_eq ho.symm
  tripped t := by simpa [isInterrupted, ht] using fun h => absurd h.symm (hn t)
  registered _ hr := by simpa only [Registered, ht] using hr
  code := by simpa using he

/-- Where nothing is done to tokens and operations, there is nothing to account for. -/
theorem Accounts.steady (h : w.Steady w') : Accounts op w [] w' where
  operations := Nat.le_of_eq (by rw [h.operations])
  tripped t := by simp [isInterrupted, h.tokens]
  registered _ hr := by simpa only [Registered, h.tokens] using hr
  code _ he := nomatch he

/-- A token is changed, but not tripped, and is to stop nothing more. -/
theorem Accounts.modifyToken {t : TokenId} {f : Token → Token} (hf : ∀ x, (f x).interrupted = x.interrupted)
    (hn : ∀ x key, (key, Reaction.stop op) ∈ (f x).entries → (key, Reaction.stop op) ∈ x.entries) :
    Accounts op w [] (w.modifyToken t f) where
  operations := Nat.le_refl _
  tripped s := by simp [isInterrupted_modifyToken_of_eq w t s hf]
  registered s hr := by
    obtain ⟨x, hx, hmem⟩ := hr
    rw [getElem?_modifyToken] at hx
    split at hx
    · obtain ⟨y, hy, rfl⟩ := Option.map_eq_some_iff.mp hx
      exact ⟨y, hy, hn y _ hmem⟩
    · exact ⟨x, hx, hmem⟩
  code _ he := nomatch he

/-- A reaction is registered, but not that the operation is stopped. -/
theorem Accounts.subscribe {t : TokenId} {r : Reaction} (hr : r ≠ .stop op) : Accounts op w [] (w.subscribe t r).2 := by
  rcases subscribe_cases w t r with hs | ⟨token, -, -, hs⟩ <;> rw [hs]
  · exact .steady (.refl w)
  · refine .modifyToken (fun _ => rfl) fun x key h => ?_
    rcases List.mem_append.mp h with h | h
    · exact h
    · exact absurd (Prod.mk.inj (List.mem_singleton.mp h)).2.symm hr

/-- A token is tripped. -/
theorem Accounts.trip {t : TokenId} {reactions : List Reaction} (h : w.trip? t = some (reactions, w')) :
    Accounts op w [.tripped t] w' := by
  obtain ⟨hlt, hsteady⟩ := trip?_steady h
  exact
    { operations := Nat.le_of_eq (by rw [hsteady.operations]; rfl)
      tripped := fun s => by
        have hs := isInterrupted_modifyToken w t s fun x => { x with interrupted := true, entries := [] }
        have heq : w'.isInterrupted s = (w.modifyToken t fun x => { x with interrupted := true, entries := [] }).isInterrupted s := by
          simp only [isInterrupted, hsteady.tokens]
        rw [heq, hs]
        by_cases hts : t = s
        · subst hts
          simp [Array.getElem?_eq_getElem hlt]
        · simp [hts, Ne.symm hts]
      registered := fun s hr => by
        obtain ⟨x, hx, hmem⟩ := hr
        rw [hsteady.tokens, getElem?_modifyToken] at hx
        split at hx
        · obtain ⟨y, -, rfl⟩ := Option.map_eq_some_iff.mp hx
          cases hmem
        · exact ⟨x, hx, hmem⟩
      code := by simp [HostEvent.isCode] }

/-- All that code does is accounted for by what happens while it does it. -/
theorem accounts_labelled (op : OperationId) : Labelled (Accounts op) where
  trans := Accounts.trans
  steady := Accounts.steady
  subscribe w t l := .subscribe nofun
  withdraw w s := .modifyToken (fun _ => rfl) fun _ _ h => (List.mem_filter.mp h).1
  registered w o l _ := by
    refine .operation ?_ (size_modifyOperation w o _) rfl fun _ => nofun
    rfl
  late w o l _ := by
    have hregistered : Accounts op w [.registered o l] w := .operation rfl rfl rfl fun _ => nofun
    have hinvoked : Accounts op w [.invoked o l] w := .operation rfl rfl rfl fun _ => nofun
    exact hregistered.trans hinvoked
  tripped := Accounts.trip
  stopped {trip seen} hc o w := by
    refine stop_labelled Accounts.trans Accounts.steady hc (.operation ?_ (size_modifyOperation w o _) rfl fun _ => nofun)
      fun l v => .operation rfl rfl rfl fun _ => nofun
    rfl

/-! ## Hooks -/

/-- What becomes of the hooks of an operation, if some have been taken out that are due to run. -/
structure Serves (op : OperationId) (due : List Listener) (w : World) (es : List HostEvent) (w' : World) : Prop where
  begun : op < w'.operations.size
  /-- Each hook that is due, or waits, or is handed over, is invoked once or waits. -/
  balance : (due ++ (w.waitingHooks op ++ es.filterMap (·.registered? op))).Perm
    (es.filterMap (·.invoked? op) ++ w'.waitingHooks op)
  stopped : w'.isFired op = true ↔ w.isFired op = true ∨ .stopped op ∈ es
  /-- No hook waits for an operation that has been stopped. -/
  spent : (w.isFired op = true → w.waitingHooks op = []) → w'.isFired op = true → w'.waitingHooks op = []
  /-- No hook is invoked before the operation is stopped. -/
  order : ∀ i l, es[i]? = some (.invoked op l) → w.isFired op = true ∨ .stopped op ∈ es.take i
  /-- A hook that is handed over after the operation has been stopped is invoked at once. -/
  prompt : ∀ i l, es[i]? = some (.registered op l) → w.isFired op = true ∨ .stopped op ∈ es.take i →
    es[i + 1]? = some (.invoked op l)

namespace Serves

variable {due due' : List Listener}

theorem trans (h : Serves op due w₁ es w₂) (h' : Serves op due' w₂ es' w₃) :
    Serves op (due ++ due') w₁ (es ++ es') w₃ where
  begun := h'.begun
  balance := by
    have hsum := h.balance
    have hsum' := h'.balance
    rw [← Multiset.coe_eq_coe] at hsum hsum' ⊢
    simp only [← Multiset.coe_add, List.filterMap_append] at hsum hsum' ⊢
    calc
      _ = ((due : Multiset Listener) + (w₁.waitingHooks op + es.filterMap (·.registered? op))) +
          (due' + es'.filterMap (·.registered? op)) := by ac_rfl
      _ = (es.filterMap (·.invoked? op) + w₂.waitingHooks op) + (due' + es'.filterMap (·.registered? op)) := by rw [hsum]
      _ = es.filterMap (·.invoked? op) + (due' + (w₂.waitingHooks op + es'.filterMap (·.registered? op))) := by ac_rfl
      _ = _ := by rw [hsum', add_assoc]
  stopped := by rw [h'.stopped, h.stopped, List.mem_append, or_assoc]
  spent hw := h'.spent (h.spent hw)
  order i l hi := by
    rcases HostEvent.getElem?_append_cases hi with ⟨-, hi, htake⟩ | ⟨-, hi, htake⟩ <;> rw [htake]
    · exact h.order i l hi
    · rw [List.mem_append, ← or_assoc, ← h.stopped]
      exact h'.order _ l hi
  prompt i l hi hs := by
    rcases HostEvent.getElem?_append_cases hi with ⟨-, hi, htake⟩ | ⟨hle, hi, htake⟩ <;> rw [htake] at hs
    · have hnext := h.prompt i l hi hs
      rwa [List.getElem?_append_left (List.getElem?_eq_some_iff.mp hnext).1]
    · rw [List.mem_append, ← or_assoc, ← h.stopped] at hs
      rw [List.getElem?_append_right (Nat.le_succ_of_le hle), Nat.succ_sub hle]
      exact h'.prompt _ l hi hs

/-- As long as an operation has not been stopped, no hook of it has been invoked. -/
theorem quiet (h : Serves op due w es w') (hf : w'.isFired op = false) : es.filterMap (·.invoked? op) = [] := by
  rw [List.filterMap_eq_nil_iff]
  intro e he
  obtain ⟨i, hi⟩ := List.mem_iff_getElem?.mp he
  cases e with
  | invoked o l =>
    refine if_neg fun ho => ?_
    subst ho
    have hstopped := (h.order i l hi).imp_right List.mem_of_mem_take
    rw [h.stopped.mpr hstopped] at hf
    nomatch hf
  | _ => rfl

/-- Nothing has happened to this operation. -/
theorem untouched (hop : op < w.operations.size) (ho : w'.operations[op]? = w.operations[op]?)
    (hr : es.filterMap (·.registered? op) = []) (hi : es.filterMap (·.invoked? op) = []) (hs : .stopped op ∉ es) :
    Serves op [] w es w' where
  begun := by
    rw [Array.getElem?_eq_getElem hop] at ho
    exact (Array.getElem?_eq_some_iff.mp ho).1
  balance := by simp [hr, hi, waitingHooks, ho]
  stopped := by simp [isFired, ho, hs]
  spent h := by simpa only [waitingHooks, isFired, ho] using h
  order i l hinv := by
    have hmem : l ∈ es.filterMap (·.invoked? op) :=
      List.mem_filterMap.mpr ⟨_, List.mem_of_getElem? hinv, by simp [HostEvent.invoked?]⟩
    rw [hi] at hmem
    cases hmem
  prompt i l hreg _ := by
    have hmem : l ∈ es.filterMap (·.registered? op) :=
      List.mem_filterMap.mpr ⟨_, List.mem_of_getElem? hreg, by simp [HostEvent.registered?]⟩
    rw [hr] at hmem
    cases hmem

/-- Where nothing is done to tokens and operations, no hook is served. -/
theorem steady (hop : op < w.operations.size) (h : w.Steady w') : Serves op [] w [] w' :=
  untouched hop (by rw [h.operations]) rfl rfl List.not_mem_nil

theorem subscribe (hop : op < w.operations.size) (t : TokenId) (r : Reaction) : Serves op [] w [] (w.subscribe t r).2 := by
  rcases subscribe_cases w t r with hs | ⟨token, -, -, hs⟩ <;> rw [hs]
  · exact .steady hop (.refl w)
  · exact .untouched hop rfl rfl rfl List.not_mem_nil

/-- A hook joins those that wait. -/
theorem registered (hop : op < w.operations.size) (l : Listener) (hf : w.isFired op = false) :
    Serves op [] w [.registered op l] (w.modifyOperation op fun x => { x with hooks := x.hooks ++ [l] }) where
  begun := by rwa [size_modifyOperation]
  balance := by
    rw [waitingHooks_modifyOperation]
    simp [waitingHooks, HostEvent.registered?, HostEvent.invoked?, Array.getElem?_eq_getElem hop]
  stopped := by
    rw [isFired_modifyOperation]
    simp [isFired]
  spent _ h := by
    rw [isFired_modifyOperation] at h
    simp [isFired, Array.getElem?_eq_getElem hop] at h hf
    rw [h] at hf
    cases hf
  order i l' hi := by simpa using List.mem_of_getElem? hi
  prompt i l' hi hs := by
    rcases hs with hs | hs
    · rw [hf] at hs
      cases hs
    · have := List.mem_of_mem_take hs
      simp at this

/-- A hook of an operation that has been stopped runs, whether it has been due or has just been handed over. -/
theorem invoked (hop : op < w.operations.size) (l : Listener) (hf : w.isFired op = true) :
    Serves op [l] w [.invoked op l] w where
  begun := hop
  balance := by simp [HostEvent.registered?, HostEvent.invoked?]
  stopped := by simp
  spent h := h
  order _ _ _ := .inl hf
  prompt i l' hi _ := by
    have := List.mem_of_getElem? hi
    simp at this

/-- A hook that comes too late is served at once. -/
theorem late (hop : op < w.operations.size) (l : Listener) (hf : w.isFired op = true) :
    Serves op [] w [.registered op l, .invoked op l] w where
  begun := hop
  balance := by simp [HostEvent.registered?, HostEvent.invoked?]
  stopped := by simp
  spent h := h
  order _ _ _ := .inl hf
  prompt i l' hi _ := by
    match i with
    | 0 =>
      obtain ⟨-, rfl⟩ := HostEvent.registered.inj (Option.some.inj hi)
      rfl
    | 1 => nomatch hi
    | _ + 2 => nomatch hi

end Serves

/-- The hooks of an operation that has been stopped, and that are due, run one after the other. -/
theorem serves_each {trip : Tripping} {seen : Tracing}
    (hc : ∀ (l : Listener) w, op < w.operations.size → Serves op [] w (l.events trip seen w) (l.invoke trip w))
    (ls : List Listener) {w : World} (hop : op < w.operations.size) (hf : w.isFired op = true) :
    Serves op ls w (HostEvent.each (fun l w => l.invoke trip w) (fun l w => .invoked op l :: l.events trip seen w) ls w)
      (ls.foldl (fun w l => l.invoke trip w) w) := by
  induction ls generalizing w with
  | nil => exact .steady hop (.refl w)
  | cons l ls ih =>
    have hfirst := (Serves.invoked hop l hf).trans (hc l w hop)
    exact hfirst.trans (ih hfirst.begun (hfirst.stopped.mpr (.inl hf)))

/-- An operation is stopped: the hooks that wait are taken out and run. -/
theorem serves_stop {trip : Tripping} {seen : Tracing}
    (hc : ∀ (l : Listener) w, op < w.operations.size → Serves op [] w (l.events trip seen w) (l.invoke trip w))
    {w : World} (hop : op < w.operations.size) :
    Serves op [] w ((Reaction.stop op).events trip seen w) ((Reaction.stop op).run trip w) := by
  have hop' : op < (w.takeHooks op).2.operations.size := by rwa [takeHooks, size_modifyOperation]
  have hf : (w.takeHooks op).2.isFired op = true := by
    rw [takeHooks, isFired_modifyOperation]
    simp [Array.getElem?_eq_getElem hop]
  have hempty : (w.takeHooks op).2.waitingHooks op = [] := by
    rw [takeHooks, waitingHooks_modifyOperation]
    simp [Array.getElem?_eq_getElem hop]
  have heach := serves_each hc (w.takeHooks op).1 hop' hf
  have hrun := heach.trans (.steady heach.begun (.wakeOperation _ op))
  rw [List.append_nil, List.append_nil] at hrun
  have hstopped := hrun.stopped.mpr (.inl hf)
  have hbalance := hrun.balance
  rw [hempty] at hbalance
  exact
    { begun := hrun.begun
      balance := hbalance
      stopped := ⟨fun _ => .inr List.mem_cons_self, fun _ => hstopped⟩
      spent := fun _ => hrun.spent fun _ => hempty
      order := fun i l hi => by
        cases i with
        | zero => cases hi
        | succ i => exact .inr List.mem_cons_self
      prompt := fun i l hi _ => by
        cases i with
        | zero => cases hi
        | succ i => exact hrun.prompt i l hi (.inl hf) }

/-- Whatever code does, the hooks that wait for an operation are served: each runs once, when the operation is stopped. -/
theorem serves_labelled (op : OperationId) : Labelled fun w es w' => op < w.operations.size → Serves op [] w es w' where
  trans h h' hop := (h hop).trans (h' (h hop).begun)
  steady h hop := .steady hop h
  subscribe w t l hop := .subscribe hop t (.call l)
  withdraw w s hop := .untouched hop rfl rfl rfl List.not_mem_nil
  registered w o l hf hop := by
    by_cases ho : o = op
    · subst ho
      exact .registered hop l hf
    · refine .untouched hop ?_ ?_ ?_ ?_
      · simp [modifyOperation, Array.getElem?_modify, ho]
      all_goals simp [HostEvent.registered?, HostEvent.invoked?, ho]
  late w o l hf hop := by
    by_cases ho : o = op
    · subst ho
      exact .late hop l hf
    · refine .untouched hop rfl ?_ ?_ ?_
      all_goals simp [HostEvent.registered?, HostEvent.invoked?, ho]
  tripped {w w' t reactions} h hop := by
    obtain ⟨-, hsteady⟩ := trip?_steady h
    refine .untouched hop (by rw [hsteady.operations]; rfl) ?_ ?_ ?_
    all_goals simp [HostEvent.registered?, HostEvent.invoked?]
  stopped {trip seen} hc o w hop := by
    by_cases ho : o = op
    · subst ho
      exact serves_stop hc hop
    · have htake : Serves op [] w [.stopped o] (w.takeHooks o).2 := by
        refine .untouched hop ?_ ?_ ?_ ?_
        · simp [takeHooks, modifyOperation, Array.getElem?_modify, ho]
        all_goals simp [HostEvent.registered?, HostEvent.invoked?, Ne.symm ho]
      have hinvoked (l : Listener) (v : World) (hv : op < v.operations.size) : Serves op [] v [.invoked o l] v := by
        refine .untouched hv rfl ?_ ?_ ?_
        all_goals simp [HostEvent.registered?, HostEvent.invoked?, ho]
      exact stop_labelled (R := fun w es w' => op < w.operations.size → Serves op [] w es w')
        (fun h h' hop => (h hop).trans (h' (h hop).begun)) (fun h hop => .steady hop h) hc (fun _ => htake) hinvoked hop

end World

end Interruptible
