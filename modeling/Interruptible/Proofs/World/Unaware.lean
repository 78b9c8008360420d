import Interruptible.Proofs.World.TokenBook

/-!
# Subscriptions that are of no consequence

What stands on a token is of no consequence for anybody until the token trips. A computation is unaware of a subscription
(`World.Unaware`) if it does the same in the world in which that subscription has been dropped, and leaves the world in which it
has been dropped, provided that it does not trip the token. Everything that code does is unaware of each subscription, in this
sense (`Action.run_unaware`, `Future.poll_unaware`), and so is a trip of a token with all that follows from it
(`World.interrupt_unaware`): if the token of the subscription is among those that trip, nothing is claimed.
-/

namespace Interruptible

namespace World

/-- A computation that does the same with and without a subscription, unless it trips the token of that subscription. -/
structure Unaware {α : Type} (s : Subscription) (f : World → α × World) : Prop where
  latched : ∀ w, w.isInterrupted s.token = true → (f w).2.isInterrupted s.token = true
  allotted : ∀ w, w.Allotted s → (f w).2.Allotted s
  same : ∀ w, w.Allotted s → (f (w.unsubscribe s)).2.isInterrupted s.token = false →
    f (w.unsubscribe s) = ((f w).1, (f w).2.unsubscribe s)

variable {α β : Type} {s : Subscription}

namespace Unaware

variable {f f' : World → α × World} {g : α → World → β × World}

/-- Computations that do the same are unaware of the same subscriptions. -/
theorem congr (h : Unaware s f) (hf : ∀ w, f' w = f w) : Unaware s f' := by
  obtain rfl : f' = f := funext hf
  exact h

/-- A computation that does not touch the tokens, and does the same whatever they are. -/
theorem of_tokens (h : ∀ (w : World) tokens, f { w with tokens } = ((f w).1, { (f w).2 with tokens })) : Unaware s f := by
  have htokens : ∀ w, (f w).2.tokens = w.tokens := fun w => congrArg (fun x => x.2.tokens) (h w w.tokens)
  refine ⟨fun w hw => ?_, fun w hw => ?_, fun w _ _ => ?_⟩
  · rw [isInterrupted, htokens]
    exact hw
  · rw [Allotted, htokens]
    exact hw
  · have hmove : f (w.unsubscribe s) = ((f w).1, { (f w).2 with tokens := (w.unsubscribe s).tokens }) := h w _
    rw [hmove]
    refine Prod.ext rfl ?_
    simp only [unsubscribe, modifyToken, htokens]

/-- A computation that does nothing is unaware of every subscription. -/
theorem pure (x : α) : Unaware s fun w => (x, w) := of_tokens fun _ _ => rfl

/-- One computation after another: the token has not been tripped in between either. -/
theorem bind (hf : Unaware s f) (hg : ∀ x, Unaware s (g x)) : Unaware s fun w => g (f w).1 (f w).2 where
  latched w hw := (hg _).latched _ (hf.latched w hw)
  allotted w hw := (hg _).allotted _ (hf.allotted w hw)
  same w hw ho := by
    have hmid : (f (w.unsubscribe s)).2.isInterrupted s.token = false :=
      Bool.eq_false_iff.mpr fun hi => absurd (((hg _).latched _ hi).symm.trans ho) Bool.true_eq_false.mp
    have hfirst := hf.same w hw hmid
    simp only [hfirst] at ho ⊢
    exact (hg _).same _ (hf.allotted w hw) ho

/-- A computation whose result is not looked at. -/
theorem seq {k : World → β × World} (hf : Unaware s f) (hk : Unaware s k) : Unaware s fun w => k (f w).2 :=
  hf.bind (g := fun _ => k) fun _ => hk

/-- What is made of the answer of a computation changes nothing in what it is aware of. -/
theorem map (hf : Unaware s f) (k : α → β) : Unaware s fun w => (k (f w).1, (f w).2) :=
  hf.bind (g := fun x w => (k x, w)) fun _ => .pure _

/-- A condition that does not depend on the subscription. -/
theorem ite {c : World → Bool} (hc : ∀ w, c (w.unsubscribe s) = c w) (hf : Unaware s f) (hf' : Unaware s f') :
    Unaware s fun w => if c w then f w else f' w where
  latched w hw := by
    split
    · exact hf.latched w hw
    · exact hf'.latched w hw
  allotted w hw := by
    split
    · exact hf.allotted w hw
    · exact hf'.allotted w hw
  same w hw ho := by
    rw [hc] at ho ⊢
    cases h : c w with
    | true =>
      rw [h] at ho
      exact hf.same w hw ho
    | false =>
      rw [h] at ho
      exact hf'.same w hw ho

/-- A computation for each of some things, one after the other. -/
theorem foldl {run : β → World → World} (h : ∀ x, Unaware s fun w => ((), run x w)) (xs : List β) :
    Unaware s fun w => ((), xs.foldl (fun w x => run x w) w) := by
  induction xs with
  | nil => exact .pure ()
  | cons x xs ih => exact (h x).seq ih

end Unaware

/-! ## Tokens -/

/-- Worlds with the same tokens that agree otherwise. -/
theorem ext_tokens {w v : World} (hrest : { w with tokens := #[] } = { v with tokens := #[] })
    (h : ∀ i : Nat, w.tokens[i]? = v.tokens[i]?) : w = v := by
  have htokens : w.tokens = v.tokens := Array.ext_getElem? h
  have hw : w = { ({ w with tokens := #[] } : World) with tokens := w.tokens } := rfl
  rw [hw, hrest, htokens]

/-- What becomes of a token when a subscription is dropped: it loses the entry, if it is the token of that subscription. -/
theorem getElem?_unsubscribe (w : World) (s : Subscription) (t : TokenId) :
    (w.unsubscribe s).tokens[t]? =
      if s.token = t then w.tokens[t]?.map fun x => { x with entries := x.entries.filter (·.1 != s.key) } else w.tokens[t]? :=
  getElem?_modifyToken w s.token t _

/-- No token comes or goes when a subscription is dropped. -/
theorem size_unsubscribe (w : World) (s : Subscription) : (w.unsubscribe s).tokens.size = w.tokens.size := by
  simp [unsubscribe, modifyToken]

namespace Unaware

/-- Whether a token has been tripped and what its next key is does not depend on what stands on it. -/
theorem read (t : TokenId) : Unaware s fun w => (w.tokens[t]?.map fun x => (x.interrupted, x.nextKey), w) := by
  refine ⟨fun w hw => hw, fun w hw => hw, fun w _ _ => Prod.ext ?_ rfl⟩
  show (w.unsubscribe s).tokens[t]?.map _ = w.tokens[t]?.map _
  rw [getElem?_unsubscribe]
  split
  · rw [Option.map_map]
    rfl
  · rfl

/-- Whether a token is interrupted does not depend on who has subscribed to it. -/
theorem isInterrupted (t : TokenId) : Unaware s fun w => (w.isInterrupted t, w) :=
  ((read t).map fun x => (x.map (·.1)).getD false).congr fun w => by
    unfold World.isInterrupted
    rw [Option.map_map]
    rfl

/-- A change to a token that leaves alone what stands under the key. -/
theorem modifyToken {t : TokenId} {f : Token → Token} (hlatch : ∀ x, x.interrupted = true → (f x).interrupted = true)
    (hkey : ∀ x, x.nextKey ≤ (f x).nextKey)
    (hf : ∀ x, s.key < x.nextKey → f { x with entries := x.entries.filter (·.1 != s.key) } =
      { f x with entries := (f x).entries.filter (·.1 != s.key) }) :
    Unaware s fun w => ((), w.modifyToken t f) where
  latched _ hw := latched_modifyToken t hlatch hw
  allotted w hw := by
    obtain ⟨x, hx, hlt⟩ := hw
    by_cases ht : t = s.token
    · exact ⟨f x, by rw [getElem?_modifyToken, if_pos ht, hx]; rfl, Nat.lt_of_lt_of_le hlt (hkey x)⟩
    · exact ⟨x, by rw [getElem?_modifyToken, if_neg ht, hx], hlt⟩
  same w hw _ := by
    obtain ⟨x, hx, hlt⟩ := hw
    refine Prod.ext rfl (ext_tokens rfl fun i => ?_)
    show ((w.unsubscribe s).modifyToken t f).tokens[i]? = ((w.modifyToken t f).unsubscribe s).tokens[i]?
    rw [getElem?_modifyToken, getElem?_unsubscribe, getElem?_unsubscribe, getElem?_modifyToken]
    by_cases hs : s.token = i
    · subst hs
      by_cases ht : t = s.token
      · simp only [ht, if_true, hx, Option.map_some]
        exact congrArg some (hf x hlt)
      · simp [ht]
    · simp [hs]

/-- A new token has no subscriptions. -/
theorem newToken : Unaware s World.newToken where
  latched w hw := (newToken_later w).latched _ hw
  allotted w hw := by
    obtain ⟨x, hx, hlt⟩ := hw
    have hsize : s.token < w.tokens.size := (Array.getElem?_eq_some_iff.mp hx).1
    refine ⟨x, ?_, hlt⟩
    simp only [World.newToken, Array.getElem?_push]
    rw [if_neg (Nat.ne_of_lt hsize), hx]
  same w hw _ := by
    obtain ⟨x, hx, -⟩ := hw
    have hsize : s.token < w.tokens.size := (Array.getElem?_eq_some_iff.mp hx).1
    refine Prod.ext (size_unsubscribe w s) (ext_tokens rfl fun i => ?_)
    show (w.unsubscribe s).newToken.2.tokens[i]? = (w.newToken.2.unsubscribe s).tokens[i]?
    have hpush : ∀ v : World, v.newToken.2.tokens[i]? = if i = v.tokens.size then some {} else v.tokens[i]? := fun v =>
      Array.getElem?_push
    rw [getElem?_unsubscribe, hpush, hpush, size_unsubscribe, getElem?_unsubscribe]
    by_cases hi : i = w.tokens.size
    · subst hi
      simp [Nat.ne_of_lt hsize]
    · simp [hi]

/-- Whoever subscribes is given a key that is not that of another subscription, whether or not that one has been dropped. -/
theorem subscribe (t : TokenId) (r : Reaction) : Unaware s fun w => w.subscribe t r := by
  have hadd : Unaware s fun w => ((), w.modifyToken t fun x =>
      { x with nextKey := x.nextKey + 1, entries := x.entries ++ [(x.nextKey, r)] }) :=
    modifyToken (fun _ h => h) (fun _ => Nat.le_succ _) fun x hx => by
      have hne : (x.nextKey != s.key) = true := by
        rw [bne_iff_ne]
        omega
      simp [List.filter_append, hne]
  refine ((read t).bind (g := fun token w => token.elim (none, w) fun x => bif x.1 then (none, w)
    else (some { token := t, key := x.2 }, w.modifyToken t fun x =>
      { x with nextKey := x.nextKey + 1, entries := x.entries ++ [(x.nextKey, r)] })) fun token => ?_).congr fun w => ?_
  · rcases token with _ | ⟨_ | _, key⟩
    · exact .pure _
    · exact hadd.map fun _ => some ({ token := t, key } : Subscription)
    · exact .pure _
  · unfold World.subscribe
    cases w.tokens[t]? with
    | none => rfl
    | some x =>
      obtain ⟨interrupted, _, _⟩ := x
      cases interrupted <;> rfl

/-- Dropping a subscription leaves the others alone. -/
theorem unsubscribe (u : Subscription) : Unaware s fun w => ((), w.unsubscribe u) :=
  modifyToken (fun _ h => h) (fun _ => Nat.le_refl _) fun x _ => by simp [Bool.and_comm]

/-- Withdrawing a subscription leaves the others alone. -/
theorem withdraw (u : Subscription) : Unaware s fun w => ((), w.withdraw u) :=
  modifyToken (fun _ h => h) (fun _ => Nat.le_refl _) fun x _ => by simp [Bool.and_comm]

/-! ## What does not touch tokens -/

/-- Recording something does not look at subscriptions. -/
theorem record (r : Record) : Unaware s fun w => ((), w.record r) := of_tokens fun _ _ => rfl

/-- Waking a task does not look at subscriptions. -/
theorem wake (t : TaskId) : Unaware s fun w => ((), w.wake t) :=
  of_tokens fun w tokens => by
    unfold World.wake
    dsimp only
    split
    · rfl
    · split <;> rfl

/-- Announcing something does not look at subscriptions. -/
theorem emit (x : Signal) : Unaware s fun w => ((), w.emit x) := by
  have hline : Unaware s fun w => (w.waiters.filter (·.signal == x), { w with waiters := w.waiters.filter (·.signal != x) }) :=
    of_tokens fun _ _ => rfl
  exact hline.bind (g := fun called w => ((), called.foldl (fun w x => w.wake x.task) w)) fun called =>
    foldl (fun x => wake x.task) called

/-- Waking the current task does not look at subscriptions. -/
theorem wakeCurrent : Unaware s fun w => ((), w.wakeCurrent) := by
  have hcurrent : Unaware s fun w => (w.current, w) := of_tokens fun _ _ => rfl
  refine (hcurrent.bind (g := fun current w => current.elim ((), w) fun t => ((), w.wake t)) fun current => ?_).congr
    fun w => ?_
  · cases current with
    | none => exact .pure ()
    | some t => exact wake t
  · unfold World.wakeCurrent
    cases w.current <;> rfl

/-! ## Tokens that trip -/

/-- What another token holds does not depend on the subscription. -/
theorem held {t : TokenId} (ht : s.token ≠ t) : Unaware s fun w => (w.tokens[t]?, w) := by
  refine ⟨fun w hw => hw, fun w hw => hw, fun w _ _ => Prod.ext ?_ rfl⟩
  show (w.unsubscribe s).tokens[t]? = w.tokens[t]?
  rw [getElem?_unsubscribe, if_neg ht]

/-- The latch of a token trips, and it gives out what it holds, unless it has been tripped before. -/
theorem trip? (t : TokenId) : Unaware s fun w => ((w.trip? t).map (·.1), ((w.trip? t).map (·.2)).getD w) := by
  by_cases ht : s.token = t
  · subst ht
    refine ⟨fun w hw => ?_, fun w hw => ?_, fun w hw ho => ?_⟩
    · cases h : w.trip? s.token with
      | none => exact hw
      | some x => exact (trip?_spec h).2.1
    · cases h : w.trip? s.token with
      | none => exact hw
      | some x => exact (trip?_gives h).allotted s hw
    · cases h : (w.unsubscribe s).trip? s.token with
      | none =>
        obtain ⟨x, hx, -⟩ := hw
        have hi := trip?_eq_none h (x := { x with entries := x.entries.filter (·.1 != s.key) }) (by
          rw [getElem?_unsubscribe, if_pos rfl, hx]
          rfl)
        have hi' : x.interrupted = true := hi
        have hnone : w.trip? s.token = none := by simp [World.trip?, hx, hi']
        rw [hnone]
        rfl
      | some x =>
        rw [h] at ho
        exact absurd ((trip?_spec h).2.1.symm.trans ho) Bool.true_eq_false.mp
  · refine ((held ht).bind (g := fun token w => token.elim (none, w) fun x => bif x.interrupted then (none, w)
      else (some (x.entries.map (·.2)),
        ((w.modifyToken t fun x => { x with interrupted := true, entries := [] }).emit (.token t)).record
          (.tripped (x.entries.map (·.2)).length))) fun token => ?_).congr fun w => ?_
    · have latch : Unaware s fun w => ((), w.modifyToken t fun x => { x with interrupted := true, entries := [] }) :=
        modifyToken (fun _ _ => rfl) (fun _ => Nat.le_refl _) fun _ _ => rfl
      rcases token with _ | ⟨_ | _, key, entries⟩
      · exact .pure _
      · exact ((latch.seq (emit (.token t))).seq (record _)).map fun _ => some (entries.map (·.2))
      · exact .pure _
    · unfold World.trip?
      cases w.tokens[t]? with
      | none => rfl
      | some x =>
        obtain ⟨interrupted, _, _⟩ := x
        cases interrupted <;> rfl

/-! ## Hosts -/

/-- Waking the task of an operation does not look at subscriptions. -/
theorem wakeOperation (op : OperationId) : Unaware s fun w => ((), w.wakeOperation op) := by
  have hawaiter : Unaware s fun w => (w.awaiter op, w) := of_tokens fun _ _ => rfl
  refine (hawaiter.bind (g := fun awaiter w => awaiter.elim ((), w) fun t => ((), w.wake t)) fun awaiter => ?_).congr
    fun w => ?_
  · cases awaiter with
    | none => exact .pure ()
    | some t => exact wake t
  · unfold World.wakeOperation World.awaiter
    cases w.operations[op]? with
    | none => rfl
    | some x =>
      obtain ⟨_, _, task⟩ := x
      cases task <;> rfl

/-- Opening a gate does not look at subscriptions. -/
theorem openGate (gate : String) : Unaware s fun w => ((), w.openGate gate) := by
  have hopen : Unaware s fun w => ((), { w with openGates := gate :: w.openGates }) := of_tokens fun _ _ => rfl
  refine (ite (c := fun w => w.isOpen gate) (fun _ => rfl) (.pure ()) (hopen.seq (emit (.gate gate)))).congr fun w => ?_
  unfold World.openGate
  split <;> rfl

/-- Taking a place in line does not look at subscriptions. -/
theorem park (x : Signal) (op : OperationId) : Unaware s fun w => ((), w.park x op) :=
  of_tokens fun w tokens => by
    unfold World.park
    dsimp only
    split
    · rfl
    · split <;> rfl

/-- Starting a timer does not look at subscriptions. -/
theorem startTimer (deadline : Nat) (op : OperationId) : Unaware s fun w => ((), w.startTimer deadline op) :=
  of_tokens fun w tokens => by
    unfold World.startTimer
    dsimp only
    split <;> rfl

/-- Adding a hook does not look at subscriptions. -/
theorem addHook (op : OperationId) (l : Listener) : Unaware s fun w => w.addHook op l := by
  have hadd : Unaware s fun w => (true, w.modifyOperation op fun x => { x with hooks := x.hooks ++ [l] }) :=
    of_tokens fun _ _ => rfl
  refine (ite (c := fun w => w.isFired op) (fun _ => rfl) (.pure false) hadd).congr fun w => ?_
  unfold World.addHook
  split <;> rfl

/-- Taking the hooks of an operation does not look at subscriptions. -/
theorem takeHooks (op : OperationId) : Unaware s fun w => w.takeHooks op := of_tokens fun _ _ => rfl

end Unaware

end World

/-! ## Code -/

/-- A way of tripping tokens that is unaware of a subscription. -/
def Tripping.Unaware (trip : Tripping) (s : Subscription) : Prop := ∀ t, World.Unaware s fun w => ((), trip t w)

section

variable {trip : Tripping} {s : Subscription}

/-- Commands are unaware of a subscription, if trips are. -/
theorem Command.run_unaware (ht : trip.Unaware s) (c : Command) : World.Unaware s fun w => c.run trip w := by
  cases c with
  | interrupt t => exact ht t
  | isInterrupted t => exact .isInterrupted t
  | openGate g => exact .openGate g
  | unsubscribe u => exact .withdraw u
  | link parent child =>
    refine ((World.Unaware.subscribe parent (.call (.interrupting child))).bind (g := fun u w =>
      u.elim (none, trip child w) fun u => (some u, w)) fun u => ?_).congr fun w => ?_
    · cases u with
      | none => exact (ht child).map fun _ => (none : Option Subscription)
      | some u => exact .pure _
    · simp only [Command.run]
      rcases w.subscribe parent (.call (.interrupting child)) with ⟨_ | u, v⟩ <;> rfl
  | _ => exact .of_tokens fun _ _ => rfl

/-- A listener that is invoked is as unaware as the run of it, since its panic is only recorded. -/
theorem Listener.invoke_unaware {l : Listener} (h : World.Unaware s fun w => l.run trip w) :
    World.Unaware s fun w => ((), l.invoke trip w) := by
  refine (h.bind (g := fun p w => p.elim ((), w) fun p => ((), w.record (.listenerPanicked p))) fun p => ?_).congr
    fun w => ?_
  · cases p with
    | none => exact .pure ()
    | some p => exact .record _
  · unfold Listener.invoke
    rcases l.run trip w with ⟨_ | p, v⟩ <;> rfl

/-- Listeners are unaware of a subscription, if trips are. The induction is on the listener. -/
theorem Listener.run_unaware (ht : trip.Unaware s) (l : Listener) : World.Unaware s fun w => l.run trip w := by
  induction l with
  | done => exact .pure none
  | panic p => exact .pure (some p)
  | ask c next ih => exact (Command.run_unaware ht c).bind (g := fun r w => (next r).run trip w) ih
  | subscribe t l next ihl ihn =>
    refine ((World.Unaware.subscribe t (.call l)).bind (g := fun u w =>
      u.elim ((next none).run trip (l.invoke trip w)) fun u => (next (some u)).run trip w) fun u => ?_).congr fun w => ?_
    · cases u with
      | none => exact (invoke_unaware ihl).seq (ihn none)
      | some u => exact ihn (some u)
    · rcases hw : w.subscribe t (.call l) with ⟨_ | u, v⟩
      · exact Listener.run_subscribe_none next hw
      · simp only [Listener.run, hw]
        rfl
  | register op l next ihl ihn =>
    refine ((World.Unaware.addHook op l).bind (g := fun taken w =>
      bif taken then next.run trip w else next.run trip (l.invoke trip w)) fun taken => ?_).congr fun w => ?_
    · cases taken with
      | true => exact ihn
      | false => exact (invoke_unaware ihl).seq ihn
    · rcases hw : w.addHook op l with ⟨_ | _, v⟩
      · exact Listener.run_register_late next hw
      · simp only [Listener.run, hw]
        rfl

/-- Reactions are unaware of a subscription, if trips are. -/
theorem Reaction.run_unaware (ht : trip.Unaware s) (r : Reaction) : World.Unaware s fun w => ((), r.run trip w) := by
  cases r with
  | call l => exact Listener.invoke_unaware (l.run_unaware ht)
  | forward child => exact ht child
  | stop op =>
    exact (World.Unaware.takeHooks op).bind
      (g := fun hooks w => ((), (hooks.foldl (fun w l => l.invoke trip w) w).wakeOperation op)) fun hooks =>
        (World.Unaware.foldl (fun l => Listener.invoke_unaware (l.run_unaware ht)) hooks).seq (.wakeOperation op)

end

variable {s : Subscription}

/-- Trips are unaware of a subscription that is not that of a token they trip. The induction is on how many more may come
about. -/
theorem World.trip_unaware (n : Nat) : Tripping.Unaware (fun t w => World.trip n t w) s := by
  induction n with
  | zero => exact fun t => .pure ()
  | succ n ih =>
    intro t
    refine ((Unaware.trip? t).bind (g := fun reactions w => reactions.elim ((), w) fun reactions =>
      ((), reactions.foldl (fun w r => r.run (fun t w => World.trip n t w) w) w)) fun reactions => ?_).congr fun w => ?_
    · cases reactions with
      | none => exact .pure ()
      | some reactions => exact Unaware.foldl (fun r => r.run_unaware ih) reactions
    · simp only [World.trip]
      cases w.trip? t with
      | none => rfl
      | some x => rfl

/-- Interrupting a token is unaware of subscriptions to tokens that are not tripped by it. -/
theorem World.interrupt_unaware : Tripping.Unaware World.interrupt s := fun t =>
  { latched := fun w hw => (World.interrupt_later t w).latched _ hw
    allotted := fun w hw => (World.interrupt_acts t w).allotted s hw
    same := fun w hw ho => by
      simp only [World.interrupt, World.size_unsubscribe] at ho ⊢
      exact (World.trip_unaware _ t).same w hw ho }

/-- Subscribing to a token is unaware of the subscriptions of others, also when the reaction is carried out at once. -/
theorem World.react_unaware (t : TokenId) (r : Reaction) : World.Unaware s fun w => w.react t r := by
  refine ((World.Unaware.subscribe t r).bind (g := fun u w => u.elim (none, r.run World.interrupt w) fun u => (some u, w))
    fun u => ?_).congr fun w => ?_
  · cases u with
    | none => exact (r.run_unaware World.interrupt_unaware).map fun _ => (none : Option Subscription)
    | some u => exact .pure _
  · unfold World.react
    rcases w.subscribe t r with ⟨_ | u, v⟩ <;> rfl

/-- Actions of code are unaware of subscriptions to tokens that they do not trip. The induction is on the action. -/
theorem Action.run_unaware {α : Type} (a : Action α) : World.Unaware s fun w => a.run w := by
  induction a with
  | pure x => exact .pure _
  | panic p => exact .pure _
  | ask c next ih => exact (Command.run_unaware World.interrupt_unaware c).bind (g := fun r w => (next r).run w) ih
  | subscribe t l next ih => exact (World.react_unaware t (.call l)).bind (g := fun u w => (next u).run w) ih
  | register op l next ih =>
    refine ((World.Unaware.addHook op l).bind (g := fun taken w =>
      bif taken then next.run w else next.run (l.invoke World.interrupt w)) fun taken => ?_).congr fun w => ?_
    · cases taken with
      | true => exact ih
      | false => exact (Listener.invoke_unaware (l.run_unaware World.interrupt_unaware)).seq ih
    · simp only [Action.run]
      rcases w.addHook op l with ⟨_ | _, v⟩ <;> rfl

/-- What a future has waited for has happened, or has not, whatever stands on the tokens. -/
theorem World.hasHappened_unsubscribe (w : World) (s : Subscription) (x : Signal) :
    (w.unsubscribe s).hasHappened x = w.hasHappened x := by
  cases x with
  | token t => exact World.isInterrupted_unsubscribe w s t
  | _ => rfl

/-- Polling a future is unaware of subscriptions to tokens that it does not trip. -/
theorem Future.poll_unaware (op : OperationId) (f : Future) : World.Unaware s fun w => f.poll op w := by
  induction f with
  | settle r => exact .pure _
  | panic p => exact .pure _
  | never => exact .pure _
  | ask c next ih => exact (Command.run_unaware World.interrupt_unaware c).bind (g := fun r w => (next r).poll op w) ih
  | subscribe t l next ih => exact (World.react_unaware t (.call l)).bind (g := fun u w => (next u).poll op w) ih
  | register h l next ih =>
    refine ((World.Unaware.addHook h l).bind (g := fun taken w =>
      bif taken then next.poll op w else next.poll op (l.invoke World.interrupt w)) fun taken => ?_).congr fun w => ?_
    · cases taken with
      | true => exact ih
      | false => exact (Listener.invoke_unaware (l.run_unaware World.interrupt_unaware)).seq ih
    · simp only [Future.poll]
      rcases w.addHook h l with ⟨_ | _, v⟩ <;> rfl
  | sleep ms next ih =>
    have hnow : World.Unaware s fun w => (w.now, w) := .of_tokens fun _ _ => rfl
    refine (hnow.bind (g := fun now w => if ms = 0 then next.poll op w
      else (.pending (.sleepUntil (now + ms) next), w.startTimer (now + ms) op)) fun now => ?_).congr fun w => rfl
    by_cases hms : ms = 0
    · simpa only [hms, if_true] using ih
    · simp only [hms, if_false]
      exact (World.Unaware.startTimer (now + ms) op).map fun _ => Poll.pending (.sleepUntil (now + ms) next)
  | sleepUntil t next ih =>
    have hnow : World.Unaware s fun w => (w.now, w) := .of_tokens fun _ _ => rfl
    refine (hnow.bind (g := fun now w => if t ≤ now then next.poll op w
      else (.pending (.sleepUntil t next), w)) fun now => ?_).congr fun w => rfl
    by_cases ht : t ≤ now
    · simpa only [ht, if_true] using ih
    · simp only [ht, if_false]
      exact .pure _
  | yield n next ih =>
    cases n with
    | zero => exact ih
    | succ n => exact World.Unaware.wakeCurrent.map fun _ => Poll.pending (.yield n next)
  | wait x next ih =>
    refine (World.Unaware.ite (c := fun w => w.hasHappened x) (fun w => World.hasHappened_unsubscribe w s x) ih
      ((World.Unaware.park x op).map fun _ => Poll.pending (.wait x next))).congr fun w => rfl

end Interruptible
