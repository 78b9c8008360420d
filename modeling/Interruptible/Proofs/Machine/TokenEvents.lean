import Interruptible.Proofs.Machine.Turns
import Interruptible.Proofs.World.TokenBook

/-!
# What turns do to tokens

An interpreter registers a reaction when it starts a host future or a group, and gives the subscription up when it goes on;
the callbacks and futures that it runs make calls of their own. `Process.tokenEvents` lists what happens to tokens in a turn of
a process, in its order, with all that follows from it; what interpreters merely ask of their own tokens is left out. The book
of every token is kept through a turn (`Process.turn_notes`).

Only the runtime registers anything but listeners and only the runtime drops subscriptions that way
(`TokenEvent.byRuntime`), so that in a turn its doings are told apart from those of code (`Action.tokenEvents_byCode`).
-/

namespace Interruptible

/-! ## Futures and turns -/

/-- What happens to tokens while a future is polled. -/
def Future.tokenEvents : Future → World → List TokenEvent
  | .settle _, _ | .panic _, _ | .never, _ => []
  | .ask c next, w =>
    c.tokenEvents World.interruptTokenEvents w ++
      (next (c.run World.interrupt w).1).tokenEvents (c.run World.interrupt w).2
  | .subscribe t l next, w =>
    w.reactTokenEvents t (.call l) ++ (next (w.react t (.call l)).1).tokenEvents (w.react t (.call l)).2
  | .register op l next, w =>
    match w.addHook op l with
    | (true, w) => next.tokenEvents w
    | (false, w) =>
      l.tokenEvents World.interrupt World.interruptTokenEvents w ++ next.tokenEvents (l.invoke World.interrupt w)
  | .sleep ms next, w => if ms = 0 then next.tokenEvents w else []
  | .sleepUntil t next, w => if t ≤ w.now then next.tokenEvents w else []
  | .yield 0 next, w => next.tokenEvents w
  | .yield (_ + 1) _, _ => []
  | .wait s next, w => if w.hasHappened s then next.tokenEvents w else []

/-- What happens to tokens when an interpreter looks after an awaited future. -/
def Awaited.tokenEvents (a : Awaited) (w : World) : List TokenEvent :=
  if w.isFired a.op then [.dropped a.stopper]
  else
    a.future.tokenEvents (w.attend a.op) ++
      match a.future.poll a.op (w.attend a.op) with
      | (.pending _, _) => []
      | (.settled (.error x), w) =>
        .dropped a.stopper :: (do return .fail (← a.onReject x) : Action Node).tokenEvents ((w.unsubscribe a.stopper).forget a.op)
      | _ => [.dropped a.stopper]

/-- What happens to tokens when the link of a group is removed. -/
def Group.unlinkEvents (g : Group) : List TokenEvent := g.link.toList.map .dropped

/-- What happens to tokens when a round of a group is over. -/
def Group.roundEvents (g : Group) (branches : List Branch) (w : World) : List TokenEvent :=
  if g.failed && !w.isInterrupted g.token then
    (w.record (.branchFailed (branches.length - (branches.filterMap Branch.exit?).length))).interruptTokenEvents g.token
  else []

namespace Interpreter

/-- What happens to tokens when a group starts. -/
def fanOutEvents (m : Interpreter) (w : World) : List TokenEvent :=
  w.newToken.2.reactTokenEvents m.token (.forward w.newToken.1)

/-- What happens to tokens when a host future starts. -/
def startEvents (m : Interpreter) (factory : OperationId → Action Future) (w : World) : List TokenEvent :=
  let (op, w) := w.newOperation
  w.reactTokenEvents m.token (.stop op) ++
    match w.react m.token (.stop op) with
    | (none, _) => []
    | (some stopper, w) =>
      (factory op).tokenEvents w ++
        match (factory op).run w with
        | (.ok _, _) => []
        | (.error _, _) => [.dropped stopper]

/-- What happens to tokens when a node is taken. -/
def takeEvents (m : Interpreter) (n : Node) (w : World) : List TokenEvent :=
  let w := w.record (.step n.kind m.frames.height)
  match n with
  | .chain (.succeed p) k => (k p).tokenEvents w
  | .chain (.succeedLazy thunk) k =>
    thunk.tokenEvents w ++
      match evaluate thunk w with
      | (.ok p, w) => (k p).tokenEvents w
      | (.error _, _) => []
  | .defer factory => factory.tokenEvents w
  | .succeedLazy thunk => thunk.tokenEvents w
  | .interrupt => (w.record .selfInterrupted).interruptTokenEvents m.token
  | .asks read => (read m.env).tokenEvents w
  | .all _ => m.fanOutEvents w
  | .liftPromise factory _ => m.startEvents factory w
  | _ => []

/-- What happens to tokens when a frame is popped. -/
def popEvents (m : Interpreter) (o : Outcome) (w : World) : List TokenEvent :=
  match m.frames.pop? with
  | none => []
  | some (frame, _) =>
    match frame, o with
    | .apply k, .value p | .fold _ k, .value p => (k p).tokenEvents w
    | .fold recover _, .failure c => (recover c).tokenEvents w
    | _, _ => []

/-- What happens to tokens when all branches of a group have finished. -/
def joinedEvents (m : Interpreter) (g : Group) (exits : List (Exit Value Payload)) (w : World) : List TokenEvent :=
  g.unlinkEvents ++
    if (g.unlink w).isInterrupted m.token then []
    else
      match Verdict.ofExits exits with
      | .interrupted => (g.unlink w).interruptTokenEvents m.token
      | _ => []

/-- What happens to tokens at the end of a round of a group. -/
def endRoundEvents (m : Interpreter) (g : Group) (branches : List Branch) (w : World) : List TokenEvent :=
  g.roundEvents branches w ++
    if branches.length - (branches.filterMap Branch.exit?).length = 0 then
      m.joinedEvents g (branches.filterMap Branch.exit?) (g.afterRound branches w)
    else []

end Interpreter

/-- What happens to tokens in a turn of a process. -/
def Process.tokenEvents : Process → World → List TokenEvent
  | .next _ _, _ | .settled _, _ => []
  | .counted m n, w => if w.isInterrupted m.token then [] else m.takeEvents n w
  | .popping m o, w => m.popEvents o w
  | .finalizing _ _ child, w => child.tokenEvents w
  | .awaiting _ a, w => a.tokenEvents w
  | .joining m g seen [], w => m.endRoundEvents g seen.reverse w
  | .joining _ _ _ (.finished _ :: _), _ => []
  | .joining _ _ _ (.running p :: _), w => p.tokenEvents w

/-! ## What is the runtime's doing -/

/-- Whether an event is the doing of the runtime: it registers something that is no listener, or it drops a subscription. -/
def TokenEvent.byRuntime : TokenEvent → Bool
  | .registered _ r _ => !r.isListener
  | .dropped _ => true
  | _ => false

/-- Nothing of what happens is the doing of the runtime. -/
def TokenEvent.AllByCode (es : List TokenEvent) : Prop := ∀ e ∈ es, e.byRuntime = false

namespace TokenEvent.AllByCode

variable {e : TokenEvent} {es es' : List TokenEvent}

theorem nil : AllByCode [] := nofun

/-- One more event is that of code. -/
theorem cons (he : e.byRuntime = false) (h : AllByCode es) : AllByCode (e :: es) := List.forall_mem_cons.mpr ⟨he, h⟩

/-- What happens first and what happens then are both the doing of code. -/
theorem append (h : AllByCode es) (h' : AllByCode es') : AllByCode (es ++ es') := List.forall_mem_append.mpr ⟨h, h'⟩

/-- What is done for one thing after the other is the doing of code, if each of it is. -/
theorem each {β : Type} {run : β → World → World} {events : β → World → List TokenEvent}
    (h : ∀ x w, AllByCode (events x w)) (xs : List β) (w : World) : AllByCode (TokenEvent.each run events xs w) := by
  induction xs generalizing w with
  | nil => exact nil
  | cons x xs ih => exact (h x w).append (ih _)

end TokenEvent.AllByCode

section

variable {trip : Tripping} {seen : TokenTracing} (hseen : ∀ u w, TokenEvent.AllByCode (seen u w))

include hseen

/-- What a command does to tokens is the doing of code. -/
theorem Command.tokenEvents_byCode (c : Command) (w : World) : TokenEvent.AllByCode (c.tokenEvents seen w) := by
  cases c with
  | interrupt u => exact hseen u w
  | isInterrupted u => exact .cons rfl .nil
  | unsubscribe s => exact .cons rfl .nil
  | link parent child =>
    simp only [Command.tokenEvents]
    split
    · exact .cons rfl .nil
    · exact .cons rfl (.cons rfl (hseen child _))
  | _ => exact .nil

/-- What a listener does to tokens is the doing of code. -/
theorem Listener.tokenEvents_byCode (l : Listener) (w : World) : TokenEvent.AllByCode (l.tokenEvents trip seen w) := by
  induction l generalizing w with
  | done => exact .nil
  | panic p => exact .nil
  | ask c next ih => exact (c.tokenEvents_byCode hseen w).append (ih _ _)
  | subscribe u l next ihl ihn =>
    simp only [Listener.tokenEvents]
    split
    · exact .cons rfl (ihn _ _)
    · exact .cons rfl (.cons rfl ((ihl _).append (ihn _ _)))
  | register op l next ihl ihn =>
    simp only [Listener.tokenEvents]
    split
    · exact ihn _
    · exact (ihl _).append (ihn _)

/-- What a reaction does to tokens when it is carried out is counted as the doing of code. -/
theorem Reaction.tokenEvents_byCode (r : Reaction) (w : World) : TokenEvent.AllByCode (r.tokenEvents trip seen w) := by
  cases r with
  | call l => exact l.tokenEvents_byCode hseen w
  | forward child => exact hseen child w
  | stop op => exact .each (fun l w => l.tokenEvents_byCode hseen w) _ _

end

namespace World

/-- A trip is the doing of code, with all that follows from it, however deep it leads. -/
theorem tripTokenEvents_byCode (n : Nat) (u : TokenId) (w : World) : TokenEvent.AllByCode (tripTokenEvents n u w) := by
  induction n generalizing u w with
  | zero => exact .nil
  | succ n ih =>
    simp only [tripTokenEvents]
    split
    · exact .cons rfl .nil
    · exact .cons rfl (.cons rfl (.each (fun e w => .cons rfl (e.2.tokenEvents_byCode ih w)) _ _))

/-- Tripping a token is the doing of code. -/
theorem interruptTokenEvents_byCode (u : TokenId) (w : World) : TokenEvent.AllByCode (w.interruptTokenEvents u) :=
  tripTokenEvents_byCode _ u w

/-- A reaction is taken in, or it comes too late and is carried out, which is a matter of code. -/
theorem reactTokenEvents_cases (w : World) (u : TokenId) (r : Reaction) :
    (∃ s, s.token = u ∧ (w.react u r).1 = some s ∧ w.reactTokenEvents u r = [.registered u r (some s.key)]) ∨
      ∃ es, (w.react u r).1 = none ∧ w.reactTokenEvents u r = .registered u r none :: es ∧ TokenEvent.AllByCode es := by
  unfold react reactTokenEvents
  rcases subscribe_cases w u r with h | ⟨token, -, -, h⟩ <;> rw [h]
  · exact .inr ⟨_, rfl, rfl, .cons rfl (r.tokenEvents_byCode interruptTokenEvents_byCode w)⟩
  · exact .inl ⟨_, rfl, rfl, rfl⟩

/-- Code registers listeners only. -/
theorem reactTokenEvents_byCode (w : World) (u : TokenId) (l : Listener) :
    TokenEvent.AllByCode (w.reactTokenEvents u (.call l)) := by
  rcases w.reactTokenEvents_cases u (.call l) with ⟨s, -, -, h⟩ | ⟨es, -, h, hes⟩ <;> rw [h]
  · exact .cons rfl .nil
  · exact .cons rfl hes

end World

/-- What an action does to tokens is the doing of code. -/
theorem Action.tokenEvents_byCode {α : Type} (a : Action α) (w : World) : TokenEvent.AllByCode (a.tokenEvents w) := by
  induction a generalizing w with
  | pure a => exact .nil
  | panic p => exact .nil
  | ask c next ih => exact (c.tokenEvents_byCode World.interruptTokenEvents_byCode w).append (ih _ _)
  | subscribe u l next ih => exact (w.reactTokenEvents_byCode u l).append (ih _ _)
  | register op l next ih =>
    simp only [Action.tokenEvents]
    split
    · exact ih _
    · exact (l.tokenEvents_byCode World.interruptTokenEvents_byCode _).append (ih _)

/-- What the poll of a future does to tokens is the doing of code. -/
theorem Future.tokenEvents_byCode (f : Future) (w : World) : TokenEvent.AllByCode (f.tokenEvents w) := by
  induction f generalizing w with
  | settle r => exact .nil
  | panic p => exact .nil
  | never => exact .nil
  | ask c next ih => exact (c.tokenEvents_byCode World.interruptTokenEvents_byCode w).append (ih _ _)
  | subscribe u l next ih => exact (w.reactTokenEvents_byCode u l).append (ih _ _)
  | register h l next ih =>
    simp only [Future.tokenEvents]
    split
    · exact ih _
    · exact (l.tokenEvents_byCode World.interruptTokenEvents_byCode _).append (ih _)
  | sleep ms next ih =>
    simp only [Future.tokenEvents]
    split
    · exact ih w
    · exact .nil
  | sleepUntil u next ih =>
    simp only [Future.tokenEvents]
    split
    · exact ih w
    · exact .nil
  | yield n next ih =>
    cases n with
    | zero => exact ih w
    | succ n => exact .nil
  | wait s next ih =>
    simp only [Future.tokenEvents]
    split
    · exact ih w
    · exact .nil

/-! ## The books of tokens -/

namespace World

variable {t : TokenId} {w w' w₁ w₂ w₃ : World} {es es' : List TokenEvent}

/-- The book of a token, if it has been made, is kept while something happens. -/
def Notes (t : TokenId) (w : World) (es : List TokenEvent) (w' : World) : Prop :=
  ∀ b, w.Shows t b → ∃ x, w'.Shows t ⟨x, b.due⟩ ∧ b.Run t es ⟨x, b.due⟩

/-- A book that is kept while some tokens are left to be tripped is kept at all. -/
theorem Keeps.notes (h : Keeps (w.untripped + 1) t w es w') : Notes t w es w' := (h (Nat.lt_succ_self _)).2

namespace Notes

theorem trans (h : Notes t w₁ es w₂) (h' : Notes t w₂ es' w₃) : Notes t w₁ (es ++ es') w₃ := by
  intro b hb
  obtain ⟨x, hx, hes⟩ := h b hb
  obtain ⟨x', hx', hes'⟩ := h' _ hx
  exact ⟨x', hx', hes.trans hes'⟩

theorem nil (ht : w'.tokens = w.tokens) : Notes t w [] w' := Keeps.notes (.nil ht)

theorem refl (w : World) : Notes t w [] w := nil rfl

/-- Afterwards something changes that is no matter of tokens. -/
theorem onward (h : Notes t w₁ es w₂) (ht : w₃.tokens = w₂.tokens) : Notes t w₁ es w₃ := by
  have hall := h.trans (nil ht)
  rwa [List.append_nil] at hall

/-- At first something changes that is no matter of tokens. -/
theorem after (h : Notes t w₂ es w₃) (ht : w₂.tokens = w₁.tokens) : Notes t w₁ es w₃ := (nil ht).trans h

/-- A call keeps the book. -/
theorem call (c : TokenCall) (w : World) : Notes t w (c.events w) (c.run w) := fun _ hb => c.run_shows hb

/-- The runtime drops a subscription, and this is noted. -/
theorem dropped (w : World) (s : Subscription) : Notes t w [.dropped s] (w.unsubscribe s) := Keeps.notes (.dropped w s)

/-- A token is tripped, and this is noted with all that follows from it. -/
theorem interrupt (u : TokenId) (w : World) : Notes t w (w.interruptTokenEvents u) (w.interrupt u) :=
  Keeps.notes (interrupt_keeps u w)

/-- A reaction is handed to a token, and this is noted with all that follows from it. -/
theorem react (w : World) (u : TokenId) (r : Reaction) : Notes t w (w.reactTokenEvents u r) (w.react u r).2 :=
  Keeps.notes (react_keeps w u r)

/-- What an action does to tokens is noted. -/
theorem acted {α : Type} (a : Action α) (w : World) : Notes t w (a.tokenEvents w) (a.run w).2 := Keeps.notes (a.run_keeps w)

end Notes

/-- No token is lost while the books of all tokens are kept. -/
theorem tokens_size_le (h : ∀ t, Notes t w es w') : w.tokens.size ≤ w'.tokens.size := by
  by_contra hlt
  rw [Nat.not_le] at hlt
  obtain ⟨x, hx, -⟩ := h w'.tokens.size ⟨w.tokens[w'.tokens.size], []⟩ ⟨Array.getElem?_eq_getElem hlt, fun _ => rfl⟩
  exact Nat.lt_irrefl _ (Array.getElem?_eq_some_iff.mp hx.token).1

end World

variable {t : TokenId}

/-- What the poll of a future does to tokens is noted. -/
theorem Future.poll_notes (op : OperationId) (f : Future) (w : World) :
    World.Notes t w (f.tokenEvents w) (f.poll op w).2 := by
  induction f generalizing w with
  | settle r => exact .refl w
  | panic p => exact .refl w
  | never => exact .refl w
  | ask c next ih => exact (World.Keeps.notes (c.run_keeps w)).trans (ih _ _)
  | subscribe u l next ih => exact (World.Notes.react w u (.call l)).trans (ih _ _)
  | register h l next ih =>
    have ha := w.addHook_tokens h l
    simp only [Future.poll, Future.tokenEvents]
    rcases he : w.addHook h l with ⟨_ | _, w'⟩ <;> rw [he] at ha
    · have hrun := World.Keeps.notes (l.invoke_keeps (t := t) w')
      exact (hrun.trans (ih _)).after ha
    · exact (ih _).after ha
  | sleep ms next ih =>
    simp only [Future.poll, Future.tokenEvents]
    split
    · exact ih w
    · exact .nil (World.Steady.startTimer w _ op).tokens
  | sleepUntil u next ih =>
    simp only [Future.poll, Future.tokenEvents]
    split
    · exact ih w
    · exact .refl w
  | yield n next ih =>
    cases n with
    | zero => exact ih w
    | succ n => exact .nil (World.Steady.wakeCurrent w).tokens
  | wait s next ih =>
    simp only [Future.poll, Future.tokenEvents]
    split
    · exact ih w
    · exact .nil (World.Steady.park w s op).tokens

/-- What a callback does to tokens is noted, whether or not it panics. -/
theorem guarded_notes (a : Action Node) (w : World) : World.Notes t w (a.tokenEvents w) (guarded a w).2 := by
  have ha := World.Notes.acted (t := t) a w
  unfold guarded
  split <;> rename_i h <;> rwa [h] at ha

/-- What a lazy success does to tokens is noted, whether or not it panics. -/
theorem evaluate_notes (thunk : Action (Except (Cause Value) Payload)) (w : World) :
    World.Notes t w (thunk.tokenEvents w) (evaluate thunk w).2 := by
  have ha := World.Notes.acted (t := t) thunk w
  unfold evaluate
  split <;> rename_i h <;> rwa [h] at ha

/-- A group gives up the link of its token, and this is noted. -/
theorem Group.unlink_notes (g : Group) (w : World) : World.Notes t w g.unlinkEvents (g.unlink w) := by
  unfold Group.unlink Group.unlinkEvents
  cases g.link with
  | none => exact .refl w
  | some s => exact .dropped w s

/-- The token of a group may be tripped at the end of a round, and this is noted. -/
theorem Group.afterRound_notes (g : Group) (branches : List Branch) (w : World) :
    World.Notes t w (g.roundEvents branches w) (g.afterRound branches w) := by
  unfold Group.roundEvents Group.afterRound
  split
  · exact .after (.interrupt g.token _) rfl
  · exact .refl w

namespace Interpreter

variable (m : Interpreter) {w v : World} {es : List TokenEvent}

/-- To observe interruption is nothing that happens to a token. -/
theorem interrupted_notes (h : World.Notes t w es v) : World.Notes t w es (m.interrupted v).world := h.onward rfl

/-- An interpreter goes on with a callback, and what that does to tokens is noted. -/
theorem goOn_notes (a : Action Node) (w : World) : World.Notes t w (a.tokenEvents w) (m.goOn a w).world := guarded_notes a w

/-- A group is linked to the token of its interpreter, and this is noted. -/
theorem fanOut_notes (children : List Node) (w : World) : World.Notes t w (m.fanOutEvents w) (m.fanOut children w).world :=
  ((World.Notes.call .make w).trans (.react w.newToken.2 m.token (.forward w.newToken.1))).onward rfl

/-- An interpreter registers the stopper of a host future and calls its factory, and this is noted. -/
theorem await_notes (factory : OperationId → Action Future) (onReject : Value → Action (Cause Value)) (w : World) :
    World.Notes t w (m.startEvents factory w) (m.await factory onReject w).world := by
  have hreact := World.Notes.react (t := t) w.newOperation.2 m.token (.stop w.newOperation.1)
  have hstarted : World.Notes t w _ _ := hreact.after rfl
  simp only [await, startEvents]
  rcases hr : w.newOperation.2.react m.token (.stop w.newOperation.1) with ⟨_ | stopper, w'⟩ <;> rw [hr] at hstarted
  · rw [List.append_nil]
    exact m.interrupted_notes (hstarted.onward rfl)
  · refine hstarted.trans ?_
    have hfactory := World.Notes.acted (t := t) (factory w.newOperation.1) w'
    dsimp only
    rcases hf : (factory w.newOperation.1).run w' with ⟨p | future, v⟩ <;> rw [hf] at hfactory
    · exact hfactory.trans (.dropped v stopper)
    · exact hfactory.trans (.refl v)

/-- A node is taken, and what that does to tokens is noted; the step is recorded first. -/
theorem take_notes (n : Node) (w : World) : World.Notes t w (m.takeEvents n w) (m.take n w).world := by
  have started {es : List TokenEvent} {u : World} (h : World.Notes t (w.record (.step n.kind m.frames.height)) es u) :
      World.Notes t w es u := h.after rfl
  have hevaluate (thunk : Action (Except (Cause Value) Payload)) :=
    evaluate_notes (t := t) thunk (w.record (.step n.kind m.frames.height))
  cases n with
  | chain inner k =>
    cases inner with
    | succeed p => exact started (m.goOn_notes _ _)
    | succeedLazy thunk =>
      have hthunk := hevaluate thunk
      simp only [take, takeEvents]
      rcases he : evaluate thunk _ with ⟨c | p, u⟩ <;> rw [he] at hthunk
      · exact started (hthunk.trans (.refl u))
      · exact started (hthunk.trans (m.goOn_notes (k p) u))
    | _ => exact started (.refl _)
  | defer factory => exact started (m.goOn_notes _ _)
  | succeedLazy thunk =>
    have hthunk := hevaluate thunk
    simp only [take, takeEvents]
    rcases he : evaluate thunk _ with ⟨c | p, u⟩ <;> rw [he] at hthunk <;> exact started hthunk
  | interrupt => exact started (m.interrupted_notes (.after (.interrupt m.token _) rfl))
  | asks read => exact started (m.goOn_notes _ _)
  | all children => exact started (m.fanOut_notes children _)
  | liftPromise factory onReject => exact started (m.await_notes factory onReject _)
  | _ => exact started (.refl _)

/-- A frame is popped, and what its callback does to tokens is noted. -/
theorem pop_notes (o : Outcome) (w : World) : World.Notes t w (m.popEvents o w) (m.pop o w).world := by
  unfold pop popEvents
  rcases m.frames.pop? with _ | ⟨frame, frames⟩
  · exact .refl w
  · cases frame with
    | finalize n => exact .call .make w
    | restore env => exact .refl w
    | apply k =>
      cases o with
      | value p => exact goOn_notes _ _ w
      | _ => exact .refl w
    | fold recover k =>
      cases o with
      | value p => exact goOn_notes _ _ w
      | failure c => exact goOn_notes _ _ w
      | interruption => exact .refl w

/-- An interpreter that goes on after a finalizer does nothing to tokens. -/
theorem finalized_notes (o : Outcome) (e : Exit Value Payload) (w : World) :
    World.Notes t w [] (m.finalized o e w).world := by
  cases e with
  | success _ => exact .refl w
  | failure fc => cases o <;> exact .nil rfl

/-- A host future is polled or given up, and what that does to tokens is noted. -/
theorem pollAwaited_notes (a : Awaited) (w : World) : World.Notes t w (a.tokenEvents w) (m.pollAwaited a w).world := by
  have given_up (v : World) : World.Notes t v [.dropped a.stopper] ((v.unsubscribe a.stopper).forget a.op) :=
    (World.Notes.dropped v a.stopper).onward rfl
  unfold pollAwaited Awaited.tokenEvents
  split
  · exact m.interrupted_notes (given_up w)
  · have hpoll : World.Notes t w _ _ := (a.future.poll_notes a.op (w.attend a.op)).after rfl
    rcases hp : a.future.poll a.op (w.attend a.op) with ⟨rest | ⟨x | p⟩ | p, v⟩ <;> rw [hp] at hpoll
    · exact hpoll.trans (.refl v)
    · exact hpoll.trans ((given_up v).trans (m.goOn_notes _ _))
    · exact hpoll.trans (given_up v)
    · exact hpoll.trans (given_up v)

/-- A group comes to its end, and what that does to tokens is noted. -/
theorem joined_notes (g : Group) (exits : List (Exit Value Payload)) (w : World) :
    World.Notes t w (m.joinedEvents g exits w) (m.joined g exits w).world := by
  rw [joined_eq, joinedEvents]
  refine (g.unlink_notes w).trans ?_
  split
  · exact m.interrupted_notes (.refl _)
  · cases Verdict.ofExits exits with
    | succeeded values => exact .refl _
    | failed c => exact .refl _
    | interrupted => exact m.interrupted_notes (.interrupt m.token _)

/-- A round of a group comes to its end, and what that does to tokens is noted. -/
theorem endRound_notes (g : Group) (branches : List Branch) (w : World) :
    World.Notes t w (m.endRoundEvents g branches w) (m.endRound g branches w).world := by
  rw [endRound_eq, endRoundEvents]
  refine (g.afterRound_notes branches w).trans ?_
  split
  · exact m.joined_notes g _ _
  · exact .refl _

end Interpreter

/-- The book of every token is kept through a turn. -/
theorem Process.turn_notes (p : Process) (w : World) : World.Notes t w (p.tokenEvents w) (p.turn w).world := by
  induction p, w using Process.turn.induct with
  | case1 m n w m' h =>
    rw [Process.turn, if_pos h]
    exact .nil (World.Steady.wakeCurrent _).tokens
  | case2 m n w m' h =>
    rw [Process.turn, if_neg h]
    exact .refl w
  | case3 m n w h =>
    rw [Process.turn, Process.tokenEvents, if_pos h, if_pos h]
    exact m.interrupted_notes (.refl w)
  | case4 m n w h =>
    rw [Process.turn, Process.tokenEvents, if_neg h, if_neg h]
    exact m.take_notes n w
  | case5 m o w => exact m.pop_notes o w
  | case6 m o e w => exact m.finalized_notes o e w
  | case7 m o child w hc ih =>
    rw [Process.turn]
    · exact ih
    · exact hc
  | case8 m a w => exact m.pollAwaited_notes a w
  | case9 m g seen w => exact m.endRound_notes g _ w
  | case10 m g seen e rest w => exact .refl w
  | case11 m g seen p rest w r e he ih =>
    simp only [Process.turn]
    split <;> exact ih
  | case12 m g seen p rest w r hpace hns ih =>
    simp only [Process.turn]
    split <;> exact ih
  | case13 m g seen p rest w r hpace hns ih =>
    simp only [Process.turn]
    split <;> exact ih
  | case14 e w => exact .refl w

end Interruptible
