import Interruptible.Proofs.Machine.Calls
import Interruptible.Proofs.Machine.FirstRound
import Interruptible.Proofs.Machine.Tandem

/-!
# What can be observed of turns

Which callbacks a process calls (`History.calls`), what the host futures come to that it awaits (`History.futures`) and what
it writes to the log (`History.logged`). Processes that match are not told apart by any of that, in worlds that match: they
call the same callbacks up to names (`Process.Matches.calls`), and the rest is the same (`Process.Matches.futures`,
`Turn.Paired.logged`).
-/

namespace Interruptible

/-- What an awaited host future has come to: it has settled or panicked, or its operation has been stopped. -/
inductive Awaited.Outcome where
  | settled (r : Except Value Payload)
  | panicked (p : Panic)
  | stopped

/-- What an awaited future comes to when it is its turn, if it does not have to wait any longer. -/
def Awaited.outcomes (a : Awaited) (w : World) : List Awaited.Outcome :=
  if w.isFired a.op then [.stopped]
  else
    match (a.future.poll a.op (w.attend a.op)).1 with
    | .pending _ => []
    | .settled r => [.settled r]
    | .panicked p => [.panicked p]

/-- What becomes of host futures in one turn. -/
def Process.futures : Process → World → List Awaited.Outcome
  | .finalizing _ _ child, w => child.futures w
  | .awaiting _ a, w => a.outcomes w
  | .joining _ _ _ (.running q :: _), w => q.futures w
  | _, _ => []

/-- What becomes of host futures in the course of some turns, in that order. -/
def History.futures (h : History) : List Awaited.Outcome := h.flatMap fun x => x.1.futures x.2

/-- What is written to the log in the course of some turns. -/
def History.logged (h : History) : List Value := h.flatMap fun x => (x.1.turn x.2).world.log.toList.drop x.2.log.size

/-- Calls of callbacks that are the same up to names, with the same arguments. -/
inductive Call.Matches (κ : Counterparts) : Call → Call → Prop
  | thunk {a a' : Action (Except (Cause Value) Payload)} (h : a.Matches (fun _ => Eq) κ a') : Matches κ (.thunk a) (.thunk a')
  | factory {a a' : Action Node} (h : a.Matches Node.Matches κ a') : Matches κ (.factory a) (.factory a')
  | read {r r' : Environment → Action Node} (h : ∀ env, (r env).Matches Node.Matches κ (r' env)) (env : Environment) :
    Matches κ (.read r env) (.read r' env)
  | apply {k k' : Payload → Action Node} (h : ∀ p, (k p).Matches Node.Matches κ (k' p)) (p : Payload) :
    Matches κ (.apply k p) (.apply k' p)
  | recover {r r' : Cause Value → Action Node} (h : ∀ c, (r c).Matches Node.Matches κ (r' c)) (c : Cause Value) :
    Matches κ (.recover r c) (.recover r' c)
  | promise {f f' : OperationId → Action Future} {o o' : OperationId} (h : (f o).Matches Future.Matches κ (f' o'))
      (ho : κ.ids .operation o o') : Matches κ (.promise f o) (.promise f' o')
  | reject {r r' : Value → Action (Cause Value)} (h : ∀ x, (r x).Matches (fun _ => Eq) κ (r' x)) (x : Value) :
    Matches κ (.reject r x) (.reject r' x)

theorem Call.Matches.mono {κ κ' : Counterparts} (hκ : κ.Sub κ') {c c' : Call} (h : c.Matches κ c') : c.Matches κ' c' := by
  cases h with
  | thunk h => exact .thunk (h.mono_eq hκ)
  | factory h => exact .factory (h.mono_node hκ)
  | read h env => exact .read (fun env => (h env).mono_node hκ) env
  | apply h p => exact .apply (fun p => (h p).mono_node hκ) p
  | recover h c => exact .recover (fun c => (h c).mono_node hκ) c
  | promise h ho => exact .promise (h.mono hκ fun _ _ _ _ hκ hf => hf.mono hκ) (hκ.ids _ _ _ ho)
  | reject h x => exact .reject (fun x => (h x).mono_eq hκ) x

/-! ## Calls -/

section

variable {κ : Counterparts} {w w' : World} (hw : w.Matches κ w')

include hw

/-- The operation that is started for a host future is there after the turn. -/
theorem Interpreter.Matches.promised {m m' : Interpreter} (hm : m.Matches κ m') {f f' : OperationId → Action Future}
    {r r' : Value → Action (Cause Value)} (hn : (Node.liftPromise f r).Matches κ (.liftPromise f' r')) :
    (κ.grown w w' (m.await f r w).world).ids .operation w.newOperation.1 w'.newOperation.1 := by
  have hnew := World.newOperation_paired hw
  have hκ := κ.sub_grown w w' w.newOperation.2
  cases hn with
  | liftPromise hf hr =>
    have hstarted := Interpreter.started_paired (hm.mono hκ) hnew.step.same hnew.answer (hf _ _ _ hκ hnew.answer)
      fun x => (hr x).mono_eq hκ
    have hgrows : w.operations.size + 1 ≤ (m.await f r w).world.operations.size := by
      simpa [World.count, World.newOperation] using hstarted.step.grows .operation
    exact .inr ⟨Nat.le_refl _, hgrows, Nat.add_comm _ _⟩

/-- Matching nodes that are taken call the same callbacks. -/
theorem Node.Matches.calls {m m' : Interpreter} (hm : m.Matches κ m') {n n' : Node} (hn : n.Matches κ n') :
    List.Forall₂ (Call.Matches (κ.grown w w' (m.take n w).world))
      (n.calls m.env m.token (w.record (.step n.kind m.frames.height)))
      (n'.calls m'.env m'.token (w'.record (.step n'.kind m'.frames.height))) := by
  have hw₁ : (w.record (.step n.kind m.frames.height)).Matches κ (w'.record (.step n'.kind m'.frames.height)) := by
    have hsame := (World.InStep.record hw (.step n.kind m.frames.height) (.step n'.kind m'.frames.height)).same
    rwa [Counterparts.grown_of_count (World.Unseen.record w _).counts] at hsame
  have hgrown (v : World) : κ.grown (w.record (.step n.kind m.frames.height)) (w'.record (.step n'.kind m'.frames.height)) v =
      κ.grown w w' v := rfl
  have hκ := κ.sub_grown w w' (m.take n w).world
  cases hn with
  | succeedLazy h => exact .cons (.thunk (h.mono_eq hκ)) .nil
  | asks h =>
    rw [Node.calls, Node.calls, hm.env]
    exact .cons (.read (fun env => (h env).mono_node hκ) _) .nil
  | defer h => exact .cons (.factory (h.mono_node hκ)) .nil
  | @liftPromise _ f f' r r' hf hr =>
    have hnew := World.newOperation_paired hw₁
    have hpromised := Interpreter.Matches.promised hw₁ hm (.liftPromise hf hr)
    rw [hgrown] at hpromised
    have hreact := (World.react_paired hnew.step.same ((κ.sub_grown _ _ _).ids _ _ _ hm.token) (.stop hnew.answer)).answer
    simp only [Node.calls]
    generalize (World.react _ m.token _).1 = s at hreact ⊢
    generalize (World.react _ m'.token _).1 = s' at hreact ⊢
    cases hreact with
    | none => exact .nil
    | some _ =>
      have hfuture := hf _ _ _ hκ hpromised
      exact .cons (.promise hfuture hpromised) .nil
  | chain h hk =>
    have happly := fun p => (hk p).mono_node hκ
    cases h with
    | succeed _ p => exact .cons (.apply happly p) .nil
    | @succeedLazy _ a a' h =>
      have heval : (evaluate a _).1 = (evaluate a' _).1 := (evaluate_paired hw₁ h).answer
      simp only [Node.calls, heval]
      split
      · exact .cons (.thunk (h.mono_eq hκ)) (.cons (.apply happly _) .nil)
      · exact .cons (.thunk (h.mono_eq hκ)) .nil
    | _ => exact .nil
  | _ => exact .nil

omit hw in
/-- A frame that is popped calls the same callback. -/
theorem Frame.Matches.calls {f f' : Frame} (hf : f.Matches κ f') (o : Outcome) :
    List.Forall₂ (Call.Matches κ) (f.calls o) (f'.calls o) := by
  cases hf with
  | apply hk =>
    cases o with
    | value p => exact .cons (.apply hk p) .nil
    | _ => exact .nil
  | fold hr hk =>
    cases o with
    | value p => exact .cons (.apply hk p) .nil
    | failure c => exact .cons (.recover hr c) .nil
    | interruption => exact .nil
  | _ => exact .nil

/-- Matching futures that are awaited are stopped alike, or polled alike. -/
theorem Awaited.Matches.polled {a a' : Awaited} (ha : a.Matches κ a') :
    w.isFired a.op = w'.isFired a'.op ∧
      ∃ κ', Poll.Matches κ' (a.future.poll a.op (w.attend a.op)).1 (a'.future.poll a'.op (w'.attend a'.op)).1 := by
  refine ⟨hw.isFired_eq ha.op, ?_⟩
  have hattend := World.attend_inStep hw ha.op
  exact ⟨_, (Future.poll_paired ha.future (κ.sub_grown _ _ _) a.op a'.op hattend.same).answer⟩

theorem Awaited.Matches.calls {a a' : Awaited} (ha : a.Matches κ a') :
    List.Forall₂ (Call.Matches κ) (a.calls w) (a'.calls w') := by
  obtain ⟨hfired, κ', hpoll⟩ := ha.polled hw
  unfold Awaited.calls
  rw [← hfired]
  split
  · exact .nil
  · generalize (a.future.poll a.op _).1 = r at hpoll ⊢
    generalize (a'.future.poll a'.op _).1 = r' at hpoll ⊢
    cases hpoll with
    | settled r =>
      cases r with
      | ok p => exact .nil
      | error x => exact .cons (.reject ha.onReject x) .nil
    | _ => exact .nil

/-- Matching futures come to the same. -/
theorem Awaited.Matches.outcomes {a a' : Awaited} (ha : a.Matches κ a') : a.outcomes w = a'.outcomes w' := by
  obtain ⟨hfired, κ', hpoll⟩ := ha.polled hw
  unfold Awaited.outcomes
  rw [← hfired]
  split
  · rfl
  · generalize (a.future.poll a.op _).1 = r at hpoll ⊢
    generalize (a'.future.poll a'.op _).1 = r' at hpoll ⊢
    cases hpoll <;> rfl

namespace Process.Matches

variable {p p' : Process}

/-- Matching processes call the same callbacks in their turns. -/
theorem calls (hp : p.Matches κ p') :
    List.Forall₂ (Call.Matches (κ.grown w w' (p.turn w).world)) (p.calls w) (p'.calls w') := by
  have mono {κ κ' : Counterparts} {cs cs' : List Call} (h : List.Forall₂ (Call.Matches κ) cs cs') (hκ : κ.Sub κ') :
      List.Forall₂ (Call.Matches κ') cs cs' := h.imp fun _ _ hc => hc.mono hκ
  induction p, w using Process.calls.induct generalizing p' w' with
  | case1 m n w h =>
    cases hp with
    | counted hm hn =>
      rw [Process.calls, Process.calls, if_pos h, if_pos (hw.isInterrupted_eq hm.token ▸ h)]
      exact .nil
  | case2 m n w h =>
    cases hp with
    | counted hm hn =>
      rw [Process.calls, Process.calls, if_neg h, if_neg (hw.isInterrupted_eq hm.token ▸ h), Process.turn, if_neg h]
      exact hn.calls hw hm
  | case3 m o w =>
    cases hp with
    | @popping _ m' hm =>
      have hframes := hm.frames
      simp only [Process.calls]
      generalize m.frames.frames = fs at hframes ⊢
      generalize m'.frames.frames = fs' at hframes ⊢
      cases hframes with
      | nil => exact .nil
      | cons hf _ => exact mono (hf.calls o) (κ.sub_grown _ _ _)
  | case4 m o child w ih =>
    cases hp with
    | finalizing hm _ hc =>
      cases hx : child.exit? with
      | none =>
        have hchild := ih hw hc
        rw [turn_finalizing m o hx]
        exact hchild
      | some e =>
        obtain rfl := exit?_eq_some hx
        cases hc
        exact .nil
  | case5 m a w =>
    cases hp with
    | awaiting hm ha => exact mono (ha.calls hw) (κ.sub_grown _ _ _)
  | case6 m g seen q rest w ih =>
    cases hp with
    | joining hm hg hs hr =>
      cases hr with
      | cons hb hr =>
        cases hb with
        | running hq =>
          have hbranch := ih hw hq
          rw [(turn_joining m g seen rest q w).1]
          exact hbranch
  | case7 p w hcounted hpopping hfinalizing hawaiting hjoining =>
    cases hp with
    | next hm hn => exact .nil
    | counted hm hn => exact absurd rfl (hcounted _ _)
    | popping hm o => exact absurd rfl (hpopping _ _)
    | finalizing hm o hc => exact absurd rfl (hfinalizing _ _ _)
    | awaiting hm ha => exact absurd rfl (hawaiting _ _)
    | joining hm hg hs hr =>
      cases hr with
      | nil => exact .nil
      | cons hb hr =>
        cases hb with
        | running hq => exact absurd rfl (hjoining _ _ _ _ _)
        | finished e => exact .nil
    | settled e => exact .nil

/-- What becomes of host futures in the turns of matching processes is the same. -/
theorem futures (hp : p.Matches κ p') : p.futures w = p'.futures w' := by
  induction p, w using Process.futures.induct generalizing p' w' with
  | case1 m o child w ih =>
    cases hp with
    | finalizing hm _ hc =>
      have hchild := ih hw hc
      exact hchild
  | case2 m a w =>
    cases hp with
    | awaiting hm ha => exact ha.outcomes hw
  | case3 m g seen q rest w ih =>
    cases hp with
    | joining hm hg hs hr =>
      cases hr with
      | cons hb hr =>
        cases hb with
        | running hq =>
          have hbranch := ih hw hq
          exact hbranch
  | case4 p w hfinalizing hawaiting hjoining =>
    cases hp with
    | finalizing hm o hc => exact absurd rfl (hfinalizing _ _ _)
    | awaiting hm ha => exact absurd rfl (hawaiting _ _)
    | joining hm hg hs hr =>
      cases hr with
      | nil => rfl
      | cons hb hr =>
        cases hb with
        | running hq => exact absurd rfl (hjoining _ _ _ _ _)
        | finished e => rfl
    | _ => rfl

end Process.Matches

end

/-- Turns that are taken in step write the same to the log. -/
theorem World.InStep.logged_eq {κ : Counterparts} {w w' v v' : World} (h : World.InStep κ w w' v v') :
    v.log.toList.drop w.log.size = v'.log.toList.drop w'.log.size := by
  obtain ⟨l, hl, hl'⟩ := h.logs
  simp [hl, hl']

end Interruptible
