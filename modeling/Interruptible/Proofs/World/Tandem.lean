import Interruptible.Proofs.World.InStep
import Interruptible.Proofs.World.Stakes

/-!
# Code in worlds that match

Matching code that runs in worlds that match goes in step: it gets matching answers, comes to matching results and leaves
worlds that match (`Action.run_paired`, `Future.poll_paired`). That includes a trip with all that follows from it
(`World.interrupt_inStep`), although the bounds on the depth of trips are not the same where there are not as many tokens.
-/

namespace Interruptible

namespace World

/-- Two computations have gone in step and have come to results that are the same as `A` says. -/
structure Paired {α β : Type} (κ : Counterparts) (w w' : World) (A : Counterparts → α → β → Prop) (x : α × World)
    (y : β × World) : Prop where
  step : InStep κ w w' x.2 y.2
  answer : A (κ.grown w w' x.2) x.1 y.1

/-- One computation after another. -/
theorem InStep.andThen {κ : Counterparts} {w w' v v' u u' : World} (h : InStep κ w w' v v')
    (hf : ∀ κ', κ.Sub κ' → v.Matches κ' v' → InStep κ' v v' u u') : InStep κ w w' u u' :=
  h.trans (hf _ (κ.sub_grown w w' v) h.same)

namespace Paired

variable {α β α' β' : Type} {κ : Counterparts} {w w' v v' : World} {A : Counterparts → α → β → Prop}
  {B : Counterparts → α' → β' → Prop} {x : α × World} {y : β × World} {p : α' × World} {q : β' × World}

/-- Two computations go in step if their first parts do, and what follows does for the counterparts that these have added. -/
theorem bind (h : Paired κ w w' A x y)
    (hf : ∀ κ', κ.Sub κ' → A κ' x.1 y.1 → x.2.Matches κ' y.2 → Paired κ' x.2 y.2 B p q) : Paired κ w w' B p q := by
  obtain ⟨hstep, hanswer⟩ := hf _ (κ.sub_grown w w' x.2) h.answer h.step.same
  refine ⟨h.step.trans hstep, ?_⟩
  rwa [Counterparts.grown_grown h.step.grows hstep.grows h.step.evenly] at hanswer

/-- A computation after a step. -/
theorem after (h : InStep κ w w' v v') (hf : ∀ κ', κ.Sub κ' → v.Matches κ' v' → Paired κ' v v' B p q) :
    Paired κ w w' B p q :=
  bind (x := ((), v)) (y := ((), v')) (A := fun _ _ _ => True) ⟨h, trivial⟩ fun κ' hκ _ hm => hf κ' hκ hm

/-- A step after a computation. -/
theorem andThen {u u' : World} (h : Paired κ w w' A x y)
    (hf : ∀ κ', κ.Sub κ' → A κ' x.1 y.1 → x.2.Matches κ' y.2 → InStep κ' x.2 y.2 u u') : InStep κ w w' u u' :=
  h.step.trans (hf _ (κ.sub_grown w w' x.2) h.answer h.step.same)

end Paired

/-! ## Slots -/

namespace Sets

theorem trans {w v u : World} {s : Slot} {x : s.Content} (h : w.Sets v s x) (h' : v.Unseen u) : w.Sets u s x where
  there := (h'.slots s).trans h.there
  others s' hs := (h'.slots s').trans (h.others s' hs)
  entries k i := (h'.entries k i).trans (h.entries k i)
  counts k := (h'.counts k).trans (h.counts k)
  log := h'.log.trans h.log

/-- Setting a counter sets its slot. -/
theorem counter (w : World) (name : String) (x : Int) :
    w.Sets { w with counters := w.counters.set name x } (.counter name) x where
  there := by simp only [slot, World.counter, Table.find?_set, Option.getD_some]
  others s hs := by
    cases s with
    | counter other =>
      have hne : other ≠ name := fun h => hs (by rw [h])
      simp only [slot, World.counter, Table.find?_set_of_ne _ hne]
    | _ => rfl
  entries k i := by cases k <;> rfl
  counts k := by cases k <;> rfl
  log := rfl

/-- Opening a gate sets its slot, and who waits for it is not for code to see. -/
theorem gate (w : World) (name : String) : w.Sets (w.openGate name) (.gate name) true := by
  unfold openGate
  split
  · rename_i h
    exact ⟨h, fun _ _ => rfl, fun _ _ => rfl, fun _ => rfl, rfl⟩
  · have hopen : w.Sets { w with openGates := name :: w.openGates } (.gate name) true := by
      refine ⟨by simp [slot, isOpen], fun s hs => ?_, fun k i => by cases k <;> rfl, fun k => by cases k <;> rfl, rfl⟩
      cases s with
      | gate other =>
        have hne : other ≠ name := fun h => hs (by rw [h])
        simp [slot, isOpen, hne]
      | _ => rfl
    exact hopen.trans (.emit _ _)

/-- Naming the hooks of an operation sets a slot. -/
theorem hooks (w : World) (name : String) (op : OperationId) :
    w.Sets { w with names := { w.names with hooks := w.names.hooks.set name op } } (.hooksName name) (some op) where
  there := Table.find?_set _ _ _
  others s hs := by
    cases s with
    | hooksName other => exact Table.find?_set_of_ne _ (fun h => hs (by rw [h])) _
    | _ => rfl
  entries k i := by cases k <;> rfl
  counts k := by cases k <;> rfl
  log := rfl

/-- Naming a subscription sets a slot. -/
theorem subscription (w : World) (name : String) (s : Subscription) :
    w.Sets { w with names := { w.names with subscriptions := w.names.subscriptions.set name s } }
      (.subscriptionName name) (some s) where
  there := Table.find?_set _ _ _
  others s hs := by
    cases s with
    | subscriptionName other => exact Table.find?_set_of_ne _ (fun h => hs (by rw [h])) _
    | _ => rfl
  entries k i := by cases k <;> rfl
  counts k := by cases k <;> rfl
  log := rfl

/-- Forgetting the name of a subscription sets a slot. -/
theorem noSubscription (w : World) (name : String) :
    w.Sets { w with names := { w.names with subscriptions := w.names.subscriptions.erase name } }
      (.subscriptionName name) none where
  there := Table.find?_erase _ _
  others s hs := by
    cases s with
    | subscriptionName other => exact Table.find?_erase_of_ne _ fun h => hs (by rw [h])
    | _ => rfl
  entries k i := by cases k <;> rfl
  counts k := by cases k <;> rfl
  log := rfl

end Sets

/-! ## Tokens and operations -/

section

variable {κ : Counterparts} {w w' : World} (hm : w.Matches κ w')

include hm

/-- Two new tokens are counterparts. -/
theorem newToken_paired : Paired κ w w' (fun κ' => κ'.ids .token) w.newToken w'.newToken where
  step := .add hm (.token w) (.token w') ⟨rfl, rfl, .nil⟩
  answer := .inr ⟨Nat.le_refl _, by simp [count, newToken], Nat.add_comm _ _⟩

/-- Two new operations are counterparts. -/
theorem newOperation_paired : Paired κ w w' (fun κ' => κ'.ids .operation) w.newOperation w'.newOperation where
  step := .add hm (.operation w) (.operation w') ⟨rfl, .nil⟩
  answer := .inr ⟨Nat.le_refl _, by simp [count, newOperation], Nat.add_comm _ _⟩

/-- A reaction is added to both tokens, or to neither. -/
theorem subscribe_paired {t t' : TokenId} {r r' : Reaction} (ht : κ.ids .token t t') (hr : r.Matches κ r') :
    Paired κ w w' (fun κ' => Option.Rel (Subscription.Matches κ')) (w.subscribe t r) (w'.subscribe t' r') := by
  obtain ⟨x, x', hx, hx', hxx⟩ := hm.token ht
  unfold subscribe
  rw [hx, hx']
  simp only [← hxx.interrupted]
  split
  · exact ⟨.refl hm, .none⟩
  · refine ⟨.modify hm ht (.token w t _) (.token w' t' _) fun y y' hyy => ⟨hyy.interrupted, ?_, ?_⟩,
      .some ⟨.inl ht, hxx.nextKey⟩⟩
    · rw [hyy.nextKey]
    · exact List.rel_append hyy.entries (.cons ⟨hyy.nextKey, hr⟩ .nil)

/-- Both tokens lose the same reactions. -/
theorem filter_inStep {t t' : TokenId} {keep : Nat × Reaction → Bool} (ht : κ.ids .token t t')
    (hkeep : ∀ e e' : Nat × Reaction, e.1 = e'.1 ∧ e.2.Matches κ e'.2 → keep e = keep e') :
    InStep κ w w' (w.modifyToken t fun x => { x with entries := x.entries.filter keep })
      (w'.modifyToken t' fun x => { x with entries := x.entries.filter keep }) := by
  refine .modify hm ht (.token w t _) (.token w' t' _) fun y y' hyy => ⟨hyy.interrupted, hyy.nextKey, ?_⟩
  exact List.rel_filter (fun {e e'} he => by simp only [hkeep e e' he]) hyy.entries

/-- Subscriptions that match are dropped in step. -/
theorem unsubscribe_inStep {s s' : Subscription} (hs : s.Matches κ s') :
    InStep κ w w' (w.unsubscribe s) (w'.unsubscribe s') := by
  unfold unsubscribe
  rw [← hs.key]
  exact filter_inStep hm hs.token fun e e' he => by rw [he.1]

/-- Subscriptions that match are withdrawn in step. -/
theorem withdraw_inStep {s s' : Subscription} (hs : s.Matches κ s') :
    InStep κ w w' (w.withdraw s) (w'.withdraw s') := by
  unfold withdraw
  rw [← hs.key]
  exact filter_inStep hm hs.token fun e e' he => by rw [he.1, he.2.isListener_eq]

/-- Both tokens trip and give out the same reactions, or neither does. -/
theorem trip?_inStep {t t' : TokenId} (ht : κ.ids .token t t') :
    w.trip? t = none ∧ w'.trip? t' = none ∨
      ∃ rs v rs' v', w.trip? t = some (rs, v) ∧ w'.trip? t' = some (rs', v') ∧
        List.Forall₂ (Reaction.Matches κ) rs rs' ∧ InStep κ w w' v v' := by
  obtain ⟨x, x', hx, hx', hxx⟩ := hm.token ht
  unfold trip?
  rw [hx, hx']
  simp only [← hxx.interrupted]
  split
  · exact .inl ⟨rfl, rfl⟩
  · refine .inr ⟨_, _, _, _, rfl, rfl, ?_, ?_⟩
    · exact List.forall₂_map_left_iff.mpr (List.forall₂_map_right_iff.mpr (hxx.entries.imp fun _ _ he => he.2))
    · exact .modify hm ht ((Modifies.token w t _).trans ((Unseen.emit _ _).trans (.record _ _)))
        ((Modifies.token w' t' _).trans ((Unseen.emit _ _).trans (.record _ _))) fun y y' hyy => ⟨rfl, hyy.nextKey, .nil⟩

/-- Hooks that match are added in step, and are refused together. -/
theorem addHook_paired {o o' : OperationId} {l l' : Listener} (ho : κ.ids .operation o o') (hl : l.Matches κ l') :
    Paired κ w w' (fun _ => Eq) (w.addHook o l) (w'.addHook o' l') := by
  unfold addHook
  rw [← hm.isFired_eq ho]
  split
  · exact ⟨.refl hm, rfl⟩
  · refine ⟨.modify hm ho (.operation w o _) (.operation w' o' _) fun y y' hyy => ⟨hyy.fired, ?_⟩, rfl⟩
    exact List.rel_append hyy.hooks (.cons hl .nil)

/-- The hooks of operations that match are taken in step. -/
theorem takeHooks_paired {o o' : OperationId} (ho : κ.ids .operation o o') :
    Paired κ w w' (fun κ' => List.Forall₂ (Listener.Matches κ')) (w.takeHooks o) (w'.takeHooks o') := by
  obtain ⟨x, x', hx, hx', hxx⟩ := hm.operation ho
  refine ⟨.modify hm ho (.operation w o _) (.operation w' o' _) fun y y' hyy => ⟨rfl, .nil⟩, ?_⟩
  simp only [takeHooks, hx, hx', Option.map_some, Option.getD_some]
  exact hxx.hooks.imp fun _ _ hl => hl.mono (κ.sub_grown _ _ _)

/-- Which task awaits an operation is not for code to see. -/
theorem attend_inStep {o o' : OperationId} (ho : κ.ids .operation o o') :
    InStep κ w w' (w.attend o) (w'.attend o') :=
  .modify hm ho (.operation w o _) (.operation w' o' _) fun _ _ hyy => ⟨hyy.fired, hyy.hooks⟩

/-- Cells that match are set in step. -/
theorem cell_inStep {c c' : CellId} (hc : κ.ids .cell c c') (x : Option Payload) :
    InStep κ w w' { w with cells := w.cells.modify c fun _ => x } { w' with cells := w'.cells.modify c' fun _ => x } :=
  .modify hm hc (.cell w c _) (.cell w' c' _) fun _ _ _ => rfl

end

end World

/-! ## Commands and listeners -/

/-- Two ways of tripping tokens that go in step, as long as fewer than so many tokens are left to be tripped. -/
structure Tripping.InStep (n : Nat) (trip : Tripping) (n' : Nat) (trip' : Tripping) : Prop where
  serving : trip.Serving n
  serving' : trip'.Serving n'
  step : ∀ κ t t' w w', w.Matches κ w' → κ.ids .token t t' → w.untripped < n → w'.untripped < n' →
    World.InStep κ w w' (trip t w) (trip' t' w')

namespace Tripping.Serving

variable {n : Nat} {trip : Tripping} (ht : trip.Serving n)

include ht

/-- A command leaves no more tokens to be tripped than there were. -/
theorem command (c : Command) {w : World} (hn : w.untripped < n) : (c.run trip w).2.untripped < n :=
  (Command.run_obeys (World.acts_respected_of_untripped n).obeyed ht.acts w c hn).untripped_lt hn

/-- A listener that is invoked leaves no more tokens to be tripped than there were. -/
theorem invoked (l : Listener) {w : World} (hn : w.untripped < n) : (l.invoke trip w).untripped < n :=
  (Listener.invoke_obeys (World.acts_respected_of_untripped n).obeyed ht.acts l w hn).untripped_lt hn

/-- A reaction leaves no more tokens to be tripped than there were. -/
theorem reaction (r : Reaction) {w : World} (hn : w.untripped < n) : (r.run trip w).untripped < n :=
  (r.run_serving ht w hn).1.untripped_lt hn

end Tripping.Serving

/-- The panic of a listener is not for code to see. -/
theorem World.Paired.invoked {κ : Counterparts} {w w' : World} {l l' : Listener} {trip trip' : Tripping}
    (h : World.Paired κ w w' (fun _ => Eq) (l.run trip w) (l'.run trip' w')) :
    World.InStep κ w w' (l.invoke trip w) (l'.invoke trip' w') := by
  unfold Listener.invoke
  rcases hw : l.run trip w with ⟨_ | p, v⟩ <;> rcases hw' : l'.run trip' w' with ⟨_ | p', v'⟩ <;> rw [hw, hw'] at h
  · exact h.step
  · nomatch h.answer
  · nomatch h.answer
  · exact h.step.andThen fun κ' _ hm => .record hm _ _

section

variable {n n' : Nat} {trip trip' : Tripping} (ht : Tripping.InStep n trip n' trip')

include ht

/-- Commands that match are answered in step, if trips go in step. -/
theorem Command.run_paired {κ : Counterparts} {w w' : World} (hm : w.Matches κ w') (hn : w.untripped < n)
    (hn' : w'.untripped < n') {c c' : Command} {A : Counterparts → c.Reply → c'.Reply → Prop} (hc : c.Matches κ c' A) :
    World.Paired κ w w' A (c.run trip w) (c'.run trip' w') := by
  cases hc with
  | log v =>
    have hshow : ∀ u : World, ∀ E, u.Spares E { u with log := u.log.push v } := fun u E =>
      ⟨fun k _ _ _ => by cases k <;> rfl, fun s _ => by cases s <;> rfl⟩
    refine ⟨.of_counts (fun k => by cases k <;> rfl) (fun k => by cases k <;> rfl) ⟨#[v], rfl, rfl⟩
      ⟨fun k => by cases k <;> exact hm.entries _, fun s => by cases s <;> exact hm.slots _, hm.right_unique,
        hm.left_unique⟩ (hshow w _) (hshow w' _), rfl⟩
  | @bump name hr hw =>
    have heq : w.counter name = w'.counter name := hm.slots (.counter name) hr
    simp only [Command.run, heq]
    exact ⟨.set hm hw (.counter w name _) (.counter w' name _) rfl, rfl⟩
  | counter hr => exact ⟨.refl hm, hm.slots (.counter _) hr⟩
  | now hr => exact ⟨.refl hm, hm.slots .clock hr⟩
  | openGate hw => exact ⟨.set hm hw (.gate w _) (.gate w' _) rfl, rfl⟩
  | interrupt h => exact ⟨ht.step _ _ _ _ _ hm h hn hn', rfl⟩
  | isInterrupted h => exact ⟨.refl hm, hm.isInterrupted_eq h⟩
  | @link t t' u u' h hu =>
    have hl : (Listener.interrupting u).Matches κ (.interrupting u') := .ask (.interrupt hu) fun κ' _ _ _ _ => .done κ'
    have hs := World.subscribe_paired hm h (.call hl)
    have hact := (World.Acts.subscribe w t (.interrupting u)).untripped_lt hn
    have hact' := (World.Acts.subscribe w' t' (.interrupting u')).untripped_lt hn'
    simp only [Command.run]
    rcases hw : w.subscribe t (.call (.interrupting u)) with ⟨_ | s, v⟩ <;>
      rcases hw' : w'.subscribe t' (.call (.interrupting u')) with ⟨_ | s', v'⟩ <;> rw [hw, hw'] at hs
    · rw [hw] at hact
      rw [hw'] at hact'
      exact .after hs.step fun κ' hκ hm' => ⟨ht.step _ _ _ _ _ hm' (hκ.ids _ _ _ hu) hact hact', .none⟩
    · cases hs.answer
    · cases hs.answer
    · exact hs
  | unsubscribe hs => exact ⟨World.withdraw_inStep hm hs, rfl⟩
  | isFired ho => exact ⟨.refl hm, hm.isFired_eq ho⟩
  | newCell =>
    refine ⟨.add hm (.cell w) (.cell w') rfl, .inr ⟨Nat.le_refl _, ?_, Nat.add_comm _ _⟩⟩
    simp [Command.run, World.count]
  | fill h p => exact ⟨World.cell_inStep hm h _, rfl⟩
  | take h =>
    obtain ⟨x, hx, hx'⟩ := hm.cell h
    exact ⟨World.cell_inStep hm h _, by simp only [Command.run, hx, hx']⟩
  | findToken hr => exact ⟨.refl hm, (hm.slots (.tokenName _) hr).mono (κ.sub_grown _ _ _)⟩
  | findCancel hr => exact ⟨.refl hm, (hm.slots (.cancelName _) hr).mono (κ.sub_grown _ _ _)⟩
  | findHooks hr => exact ⟨.refl hm, (hm.slots (.hooksName _) hr).mono (κ.sub_grown _ _ _)⟩
  | keepHooks hw ho => exact ⟨.set hm hw (.hooks w _ _) (.hooks w' _ _) (.some ho), rfl⟩
  | keepSubscription hr hw hs =>
    exact ⟨.set hm hw (.subscription w _ _) (.subscription w' _ _) (.some hs),
      (hm.slots (.subscriptionName _) hr).mono (κ.sub_grown _ _ _)⟩
  | takeSubscription hr hw =>
    exact ⟨.set hm hw (.noSubscription w _) (.noSubscription w' _) .none,
      (hm.slots (.subscriptionName _) hr).mono (κ.sub_grown _ _ _)⟩

/-- Listeners that match run in step, if trips go in step. The induction is on how they match. -/
theorem Listener.run_paired {κ₀ κ : Counterparts} {l l' : Listener} (hl : l.Matches κ₀ l') (hκ : κ₀.Sub κ) {w w' : World}
    (hm : w.Matches κ w') (hn : w.untripped < n) (hn' : w'.untripped < n') :
    World.Paired κ w w' (fun _ => Eq) (l.run trip w) (l'.run trip' w') := by
  induction hl generalizing κ w w' with
  | done => exact ⟨.refl hm, rfl⟩
  | panic _ p => exact ⟨.refl hm, rfl⟩
  | ask hc _ ih =>
    exact (Command.run_paired ht hm hn hn' (hc.mono hκ)).bind fun κ' hκ' hr hm' =>
      ih κ' _ _ (hκ.trans hκ') hr (.refl κ') hm' (ht.serving.command _ hn) (ht.serving'.command _ hn')
  | @subscribe κ₀ t t' l l' next next' h hl _ ihl ihn =>
    have hs := World.subscribe_paired hm (hκ.ids _ _ _ h) (.call (hl.mono hκ))
    have hv := (World.Acts.subscribe w t l).untripped_lt hn
    have hv' := (World.Acts.subscribe w' t' l').untripped_lt hn'
    rcases hw : w.subscribe t (.call l) with ⟨_ | s, v⟩ <;>
      rcases hw' : w'.subscribe t' (.call l') with ⟨_ | s', v'⟩ <;> rw [hw, hw'] at hs <;> rw [hw] at hv <;> rw [hw'] at hv'
    · rw [Listener.run_subscribe_none _ hw, Listener.run_subscribe_none _ hw']
      have hinvoke := hs.step.andThen fun κ' hκ' hm' => (ihl (hκ.trans hκ') hm' hv hv').invoked
      exact .after hinvoke fun κ' hκ' hm' =>
        ihn κ' _ _ (hκ.trans hκ') .none (.refl κ') hm' (ht.serving.invoked l hv) (ht.serving'.invoked l' hv')
    · cases hs.answer
    · cases hs.answer
    · simp only [Listener.run, hw, hw']
      exact hs.bind fun κ' hκ' hr hm' => ihn κ' _ _ (hκ.trans hκ') hr (.refl κ') hm' hv hv'
  | @register κ₀ o o' l l' next next' ho hl _ ihl ihn =>
    have hs := World.addHook_paired hm (hκ.ids _ _ _ ho) (hl.mono hκ)
    have hv := (World.Acts.addHook w o l).untripped_lt hn
    have hv' := (World.Acts.addHook w' o' l').untripped_lt hn'
    rcases hw : w.addHook o l with ⟨_ | _, v⟩ <;> rcases hw' : w'.addHook o' l' with ⟨_ | _, v'⟩ <;> rw [hw, hw'] at hs <;>
      rw [hw] at hv <;> rw [hw'] at hv'
    · rw [Listener.run_register_late _ hw, Listener.run_register_late _ hw']
      have hinvoke := hs.step.andThen fun κ' hκ' hm' => (ihl (hκ.trans hκ') hm' hv hv').invoked
      exact .after hinvoke fun κ' hκ' hm' =>
        ihn (hκ.trans hκ') hm' (ht.serving.invoked l hv) (ht.serving'.invoked l' hv')
    · cases hs.answer
    · cases hs.answer
    · simp only [Listener.run, hw, hw']
      exact hs.bind fun κ' hκ' _ hm' => ihn (hκ.trans hκ') hm' hv hv'

/-- Listeners that match are invoked in step: both panic, or none does. -/
theorem Listener.invoke_inStep {κ : Counterparts} {l l' : Listener} (hl : l.Matches κ l') {w w' : World}
    (hm : w.Matches κ w') (hn : w.untripped < n) (hn' : w'.untripped < n') :
    World.InStep κ w w' (l.invoke trip w) (l'.invoke trip' w') :=
  (Listener.run_paired ht hl (.refl κ) hm hn hn').invoked

/-- Listeners that match one by one are invoked in step, one after the other. -/
theorem Listener.foldl_invoke_inStep {κ₀ κ : Counterparts} {ls ls' : List Listener}
    (hl : List.Forall₂ (Listener.Matches κ₀) ls ls') (hκ : κ₀.Sub κ) {w w' : World} (hm : w.Matches κ w')
    (hn : w.untripped < n) (hn' : w'.untripped < n') :
    World.InStep κ w w' (ls.foldl (fun w l => l.invoke trip w) w) (ls'.foldl (fun w l => l.invoke trip' w) w') := by
  induction hl generalizing κ w w' with
  | nil => exact .refl hm
  | @cons l l' ls ls' hl _ ih =>
    exact (Listener.invoke_inStep ht (hl.mono hκ) hm hn hn').andThen fun κ' hκ' hm' =>
      ih (hκ.trans hκ') hm' (ht.serving.invoked l hn) (ht.serving'.invoked l' hn')

/-- Reactions that match are carried out in step. -/
theorem Reaction.run_inStep {κ : Counterparts} {r r' : Reaction} (hr : r.Matches κ r') {w w' : World} (hm : w.Matches κ w')
    (hn : w.untripped < n) (hn' : w'.untripped < n') : World.InStep κ w w' (r.run trip w) (r'.run trip' w') := by
  cases hr with
  | call hl => exact Listener.invoke_inStep ht hl hm hn hn'
  | forward h => exact ht.step _ _ _ _ _ hm h hn hn'
  | @stop o o' ho =>
    have hv := (World.Acts.takeHooks w o).untripped_lt hn
    have hv' := (World.Acts.takeHooks w' o').untripped_lt hn'
    have hinvoke := (World.takeHooks_paired hm ho).andThen fun κ' hκ hhooks hm' =>
      Listener.foldl_invoke_inStep ht hhooks (.refl κ') hm' hv hv'
    exact hinvoke.andThen fun κ' _ hm' => .still hm' (.wakeOperation _ o) (.wakeOperation _ o')

/-- Reactions that match one by one are carried out in step, one after the other. -/
theorem Reaction.foldl_run_inStep {κ₀ κ : Counterparts} {rs rs' : List Reaction}
    (hr : List.Forall₂ (Reaction.Matches κ₀) rs rs') (hκ : κ₀.Sub κ) {w w' : World} (hm : w.Matches κ w')
    (hn : w.untripped < n) (hn' : w'.untripped < n') :
    World.InStep κ w w' (rs.foldl (fun w r => r.run trip w) w) (rs'.foldl (fun w r => r.run trip' w) w') := by
  induction hr generalizing κ w w' with
  | nil => exact .refl hm
  | @cons r r' rs rs' hr _ ih =>
    exact (Reaction.run_inStep ht (hr.mono hκ) hm hn hn').andThen fun κ' hκ' hm' =>
      ih (hκ.trans hκ') hm' (ht.serving.reaction r hn) (ht.serving'.reaction r' hn')

end

/-! ## Trips -/

namespace World

/-- A token that trips leaves fewer that have not been tripped. -/
theorem GivesOut.untripped_lt {n : Nat} {w v : World} {t : TokenId} {rs : List Reaction} (h : w.GivesOut t rs v)
    (hn : w.untripped < n + 1) : v.untripped < n :=
  Nat.lt_of_lt_of_le (World.untripped_lt h.tokens_eq h.latched h.there h.before h.after) (Nat.le_of_lt_succ hn)

/-- What follows from a trip does not depend on the bound on its depth. -/
theorem trip_inStep (n n' : Nat) : Tripping.InStep n (fun t w => trip n t w) n' fun t w => trip n' t w := by
  refine ⟨trip_serving n, trip_serving n', ?_⟩
  induction n generalizing n' with
  | zero => exact fun _ _ _ _ _ _ _ hn => absurd hn (Nat.not_lt_zero _)
  | succ n ih =>
    intro κ t t' w w' hm ht hn hn'
    cases n' with
    | zero => exact absurd hn' (Nat.not_lt_zero _)
    | succ n' =>
      simp only [trip]
      rcases trip?_inStep hm ht with ⟨hw, hw'⟩ | ⟨rs, v, rs', v', hw, hw', hrs, hstep⟩
      · rw [hw, hw']
        exact .refl hm
      · rw [hw, hw']
        exact hstep.andThen fun κ' hκ hm' =>
          Reaction.foldl_run_inStep ⟨trip_serving n, trip_serving n', ih n'⟩ hrs hκ hm' ((trip?_gives hw).untripped_lt hn)
            ((trip?_gives hw').untripped_lt hn')

/-- A token trips, and its counterpart, with all that follows from it. -/
theorem interrupt_inStep {κ : Counterparts} {w w' : World} (hm : w.Matches κ w') {t t' : TokenId} (ht : κ.ids .token t t') :
    InStep κ w w' (w.interrupt t) (w'.interrupt t') :=
  (trip_inStep _ _).step κ t t' w w' hm ht (Nat.lt_succ_of_le w.untripped_le_size) (Nat.lt_succ_of_le w'.untripped_le_size)

/-- Trips go in step. The induction is on how many tokens are left to be tripped in the two worlds together. -/
theorem interrupting_inStep (n n' : Nat) : Tripping.InStep n interrupt n' interrupt :=
  ⟨interrupt_serving n, interrupt_serving n', fun _ _ _ _ _ hm ht _ _ => interrupt_inStep hm ht⟩

/-- Tokens that match are subscribed to in step, and refuse a reaction together. -/
theorem react_paired {κ : Counterparts} {w w' : World} (hm : w.Matches κ w') {t t' : TokenId} {r r' : Reaction}
    (ht : κ.ids .token t t') (hr : r.Matches κ r') :
    Paired κ w w' (fun κ' => Option.Rel (Subscription.Matches κ')) (w.react t r) (w'.react t' r') := by
  have hs := subscribe_paired hm ht hr
  unfold react
  rcases hw : w.subscribe t r with ⟨_ | s, v⟩ <;> rcases hw' : w'.subscribe t' r' with ⟨_ | s', v'⟩ <;> rw [hw, hw'] at hs
  · exact .after hs.step fun κ' hκ hm' =>
      ⟨Reaction.run_inStep (interrupting_inStep _ _) (hr.mono hκ) hm' (Nat.lt_succ_self _) (Nat.lt_succ_self _), .none⟩
  · nomatch hs.answer
  · nomatch hs.answer
  · exact hs

/-- A hook is registered with both operations, or runs on both sides. -/
theorem hook_inStep {κ : Counterparts} {w w' : World} (hm : w.Matches κ w') {o o' : OperationId} {l l' : Listener}
    (ho : κ.ids .operation o o') (hl : l.Matches κ l') :
    ∃ b v v', w.addHook o l = (b, v) ∧ w'.addHook o' l' = (b, v') ∧ InStep κ w w' v v' ∧
      InStep κ w w' (l.invoke interrupt v) (l'.invoke interrupt v') := by
  have hs := addHook_paired hm ho hl
  rcases hw : w.addHook o l with ⟨b, v⟩
  rcases hw' : w'.addHook o' l' with ⟨b', v'⟩
  rw [hw, hw'] at hs
  obtain rfl : b = b' := hs.answer
  refine ⟨b, v, v', rfl, rfl, hs.step, hs.step.andThen fun κ' hκ hm' => ?_⟩
  exact Listener.invoke_inStep (interrupting_inStep _ _) (hl.mono hκ) hm' (Nat.lt_succ_self _) (Nat.lt_succ_self _)

end World

/-! ## Actions and futures -/

/-- Results that are the same as `Q` says, or the same panic. -/
inductive Action.Results {α β : Type} (Q : Counterparts → α → β → Prop) (κ : Counterparts) :
    Except Panic α → Except Panic β → Prop
  | ok {a : α} {b : β} (h : Q κ a b) : Results Q κ (.ok a) (.ok b)
  | error (p : Panic) : Results Q κ (.error p) (.error p)

/-- Commands that match are answered in step. -/
theorem Command.ask_paired {κ : Counterparts} {w w' : World} (hm : w.Matches κ w') {c c' : Command}
    {A : Counterparts → c.Reply → c'.Reply → Prop} (hc : c.Matches κ c' A) :
    World.Paired κ w w' A (c.run World.interrupt w) (c'.run World.interrupt w') :=
  Command.run_paired (World.interrupting_inStep _ _) hm (Nat.lt_succ_self _) (Nat.lt_succ_self _) hc

/-- Matching actions have matching results in worlds that match, and go in step. -/
theorem Action.run_paired {α β : Type} {Q : Counterparts → α → β → Prop} {κ₀ κ : Counterparts} {a : Action α} {b : Action β}
    (hQ : ∀ κ κ' x y, κ.Sub κ' → Q κ x y → Q κ' x y) (h : a.Matches Q κ₀ b) (hκ : κ₀.Sub κ) {w w' : World}
    (hm : w.Matches κ w') : World.Paired κ w w' (Action.Results Q) (a.run w) (b.run w') := by
  induction h generalizing κ w w' with
  | pure h => exact ⟨.refl hm, .ok (hQ _ _ _ _ (hκ.trans (κ.sub_grown _ _ _)) h)⟩
  | panic _ p => exact ⟨.refl hm, .error p⟩
  | ask hc _ ih =>
    exact (Command.ask_paired hm (hc.mono hκ)).bind fun κ' hκ' hr hm' => ih κ' _ _ (hκ.trans hκ') hr (.refl κ') hm'
  | subscribe ht hl _ ih =>
    exact (World.react_paired hm (hκ.ids _ _ _ ht) (.call (hl.mono hκ))).bind fun κ' hκ' hr hm' =>
      ih κ' _ _ (hκ.trans hκ') hr (.refl κ') hm'
  | register ho hl _ ih =>
    obtain ⟨b, v, v', hw, hw', hadd, hinvoke⟩ := World.hook_inStep hm (hκ.ids _ _ _ ho) (hl.mono hκ)
    simp only [Action.run, hw, hw']
    cases b
    · exact .after hinvoke fun κ' hκ' hm' => ih (hκ.trans hκ') hm'
    · exact .after hadd fun κ' hκ' hm' => ih (hκ.trans hκ') hm'

/-- Polls that have come to the same. -/
inductive Poll.Matches (κ : Counterparts) : Poll → Poll → Prop
  | pending {f f' : Future} (h : f.Matches κ f') : Matches κ (.pending f) (.pending f')
  | settled (r : Except Value Payload) : Matches κ (.settled r) (.settled r)
  | panicked (p : Panic) : Matches κ (.panicked p) (.panicked p)

/-- Matching futures go in step in worlds that match. -/
theorem Future.poll_paired {κ₀ κ : Counterparts} {f f' : Future} (h : f.Matches κ₀ f') (hκ : κ₀.Sub κ) (op op' : OperationId)
    {w w' : World} (hm : w.Matches κ w') : World.Paired κ w w' Poll.Matches (f.poll op w) (f'.poll op' w') := by
  induction h generalizing κ w w' with
  | settle _ r => exact ⟨.refl hm, .settled r⟩
  | panic _ p => exact ⟨.refl hm, .panicked p⟩
  | never => exact ⟨.refl hm, .pending (.never _)⟩
  | ask hc _ ih =>
    exact (Command.ask_paired hm (hc.mono hκ)).bind fun κ' hκ' hr hm' => ih κ' _ _ (hκ.trans hκ') hr (.refl κ') hm'
  | subscribe ht hl _ ih =>
    exact (World.react_paired hm (hκ.ids _ _ _ ht) (.call (hl.mono hκ))).bind fun κ' hκ' hr hm' =>
      ih κ' _ _ (hκ.trans hκ') hr (.refl κ') hm'
  | register ho hl _ ih =>
    obtain ⟨b, v, v', hw, hw', hadd, hinvoke⟩ := World.hook_inStep hm (hκ.ids _ _ _ ho) (hl.mono hκ)
    simp only [Future.poll, hw, hw']
    cases b
    · exact .after hinvoke fun κ' hκ' hm' => ih (hκ.trans hκ') hm'
    · exact .after hadd fun κ' hκ' hm' => ih (hκ.trans hκ') hm'
  | sleep ms hr h ih =>
    have hnow : w.now = w'.now := hm.slots .clock (hκ.reads _ hr)
    simp only [Future.poll, hnow]
    split
    · exact ih hκ hm
    · exact ⟨.still hm (.startTimer w _ op) (.startTimer w' _ op'),
        .pending (.sleepUntil _ (hκ.reads _ hr) (h.mono (hκ.trans (κ.sub_grown _ _ _))))⟩
  | sleepUntil deadline hr h ih =>
    have hnow : w.now = w'.now := hm.slots .clock (hκ.reads _ hr)
    simp only [Future.poll, hnow]
    split
    · exact ih hκ hm
    · exact ⟨.refl hm, .pending (.sleepUntil _ (hκ.reads _ hr) (h.mono (hκ.trans (κ.sub_grown _ _ _))))⟩
  | yield n h ih =>
    cases n with
    | zero => exact ih hκ hm
    | succ n =>
      exact ⟨.still hm (.wakeCurrent w) (.wakeCurrent w'), .pending (.yield n (h.mono (hκ.trans (κ.sub_grown _ _ _))))⟩
  | wait hs h ih =>
    simp only [Future.poll, hm.hasHappened_eq (hs.mono hκ)]
    split
    · exact ih hκ hm
    · exact ⟨.still hm (.park w _ op) (.park w' _ op'),
        .pending (.wait (hs.mono (hκ.trans (κ.sub_grown _ _ _))) (h.mono (hκ.trans (κ.sub_grown _ _ _))))⟩

end Interruptible
