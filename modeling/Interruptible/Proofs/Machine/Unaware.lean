import Interruptible.Proofs.World.Unaware
import Interruptible.Proofs.Effect.Plan

/-!
# Turns and subscriptions that are of no consequence

A turn of a process is unaware of a subscription (`Process.turn_unaware`): in the world in which it has been dropped the turn
leads to the same process, at the same pace, with the same callbacks called, and to the world in which it has been dropped,
unless it trips the token of the subscription.
-/

namespace Interruptible

/-- What is to be seen of a turn in which some callbacks are called. -/
def Turn.shows (t : Turn) (calls : List Call) : (Process × Pace × List Call) × World :=
  ((t.process, t.pace, calls), t.world)

/-- What is to be seen of a turn of a process. -/
def Process.shown (p : Process) (w : World) : (Process × Pace × List Call) × World := (p.turn w).shows (p.calls w)

open World (Unaware)

variable {s : Subscription}

/-- Code that is called back is unaware of a subscription whose token it does not trip. -/
theorem guarded_unaware (a : Action Node) : Unaware s fun w => guarded a w :=
  (a.run_unaware.map Node.built).congr fun w => guarded_eq a w

/-- Thunks are unaware of a subscription whose token they do not trip. -/
theorem evaluate_unaware (thunk : Action (Except (Cause Value) Payload)) : Unaware s fun w => evaluate thunk w :=
  (thunk.run_unaware.map Cause.computed).congr fun w => evaluate_eq thunk w

/-- A group drops its own link, and is unaware of other subscriptions. -/
theorem Group.unlink_unaware (g : Group) : Unaware s fun w => ((), g.unlink w) := by
  unfold Group.unlink
  cases g.link with
  | none => exact .pure ()
  | some u => exact .unsubscribe u

/-- At the end of a round, a group is unaware of a subscription whose token is not tripped by that. -/
theorem Group.afterRound_unaware (g : Group) (branches : List Branch) : Unaware s fun w => ((), g.afterRound branches w) := by
  have htrip := (Unaware.record (s := s) (.branchFailed (branches.length - (branches.filterMap Branch.exit?).length))).seq
    (World.interrupt_unaware g.token)
  refine ((Unaware.isInterrupted g.token).bind (g := fun tripped w => if g.failed && !tripped then
      ((), (w.record (.branchFailed (branches.length - (branches.filterMap Branch.exit?).length))).interrupt g.token)
    else ((), w)) fun tripped => ?_).congr fun w => ?_
  · split
    · exact htrip
    · exact .pure ()
  · unfold Group.afterRound
    split <;> rfl

namespace Interpreter

variable (m : Interpreter) (L : List Call)

/-- An interpreter that finds itself interrupted is unaware of subscriptions. -/
theorem interrupted_unaware : Unaware s fun w => (m.interrupted w).shows L :=
  (Unaware.record (.unwinding m.frames.height m.instructions)).map fun _ => (Process.popping m .interruption, Pace.busy, L)

/-- An interpreter that goes on is as unaware as the code that it calls back. -/
theorem goOn_unaware (a : Action Node) : Unaware s fun w => (m.goOn a w).shows L :=
  (guarded_unaware a).map fun n => (Process.next m n, Pace.busy, L)

/-- A group starts in the same way with and without a subscription of somebody else. -/
theorem fanOut_unaware (children : List Node) : Unaware s fun w => (m.fanOut children w).shows L := by
  have hstart : ∀ token link, Unaware s fun w => (({
      process := .joining m { token, link } [] (children.map fun n => Branch.running (.start n m.env token m.interval))
      world := w.record (.joining (children.map fun n => Branch.running (.start n m.env token m.interval)).length) } : Turn).shows
        L) := fun token link =>
    (Unaware.record (.joining (children.map fun n => Branch.running (.start n m.env token m.interval)).length)).map fun _ =>
      (Process.joining m { token, link } [] (children.map fun n => Branch.running (.start n m.env token m.interval)), Pace.busy, L)
  exact Unaware.newToken.bind fun token => (World.react_unaware m.token (.forward token)).bind fun link => hstart token link

/-- How an interpreter goes on once the factory of a host future has been called. -/
def begun (m : Interpreter) (op : OperationId) (stopper : Subscription) (onReject : Value → Action (Cause Value)) :
    Except Panic Future → World → Turn
  | .ok future, w => { process := .awaiting m { op, stopper, future, onReject }, world := w }
  | .error p, w => { process := .next m (.die p.defect), world := w.unsubscribe stopper }

/-- An interpreter goes on in the same way with and without a subscription once a factory has been called. -/
theorem begun_unaware (op : OperationId) (stopper : Subscription) (onReject : Value → Action (Cause Value))
    (r : Except Panic Future) : Unaware s fun w => (m.begun op stopper onReject r w).shows L := by
  cases r with
  | ok future => exact Unaware.pure (Process.awaiting m { op, stopper, future, onReject }, Pace.busy, L)
  | error p => exact (Unaware.unsubscribe stopper).map fun _ => (Process.next m (.die p.defect), Pace.busy, L)

/-- What is called when a host future is started depends on whether the token takes the subscription that would stop it. -/
theorem await_unaware (factory : OperationId → Action Future) (onReject : Value → Action (Cause Value)) (env : Environment) :
    Unaware s fun w => (m.await factory onReject w).shows ((Node.liftPromise factory onReject).calls env m.token w) := by
  have hoperation : Unaware s World.newOperation := .of_tokens fun _ _ => rfl
  refine (hoperation.bind (g := fun op w => (w.react m.token (.stop op)).1.elim
    ((m.interrupted ((w.react m.token (.stop op)).2.record .futureSkipped)).shows []) fun stopper =>
      (m.begun op stopper onReject ((factory op).run (w.react m.token (.stop op)).2).1
        ((factory op).run (w.react m.token (.stop op)).2).2).shows [.promise factory op]) fun op => ?_).congr fun w => ?_
  · refine (World.react_unaware m.token (.stop op)).bind (g := fun stopper w => stopper.elim
      ((m.interrupted (w.record .futureSkipped)).shows []) fun stopper =>
        (m.begun op stopper onReject ((factory op).run w).1 ((factory op).run w).2).shows [.promise factory op])
          fun stopper => ?_
    cases stopper with
    | none => exact (Unaware.record .futureSkipped).seq (m.interrupted_unaware [])
    | some stopper =>
      exact (factory op).run_unaware.bind (g := fun r w => (m.begun op stopper onReject r w).shows [.promise factory op])
        fun r => m.begun_unaware _ op stopper onReject r
  · simp only [await, Node.calls]
    rcases w.newOperation.2.react m.token (.stop w.newOperation.1) with ⟨_ | stopper, v⟩
    · rfl
    · rcases hf : (factory w.newOperation.1).run v with ⟨_ | _, u⟩ <;> simp only [Option.elim_some, hf] <;> rfl

/-- What is to be seen of a turn that takes a lazy success together with its continuation. -/
def handsOn (m : Interpreter) (thunk : Action (Except (Cause Value) Payload)) (k : Payload → Action Node) :
    Except (Cause Value) Payload → World → (Process × Pace × List Call) × World
  | .ok p, w => (m.goOn (k p) w).shows [.thunk thunk, .apply k p]
  | .error c, w => ((.next m (.fail c), .busy, [.thunk thunk]), w)

/-- Nodes are taken in the same way with and without a subscription whose token is not tripped by that. -/
theorem take_unaware (n : Node) :
    Unaware s fun w => (m.take n w).shows (n.calls m.env m.token (w.record (.step n.kind m.frames.height))) := by
  have hnote : Unaware s fun w => ((), w.record (.step n.kind m.frames.height)) := .record _
  cases n with
  | succeed p => exact hnote.map fun _ => (Process.popping m (.value p), Pace.busy, [])
  | fail c => exact hnote.map fun _ => (Process.popping m (.failure c), Pace.busy, [])
  | asks read => exact hnote.seq (m.goOn_unaware [.read read m.env] (read m.env))
  | defer factory => exact hnote.seq (m.goOn_unaware [.factory factory] factory)
  | give inner env =>
    exact hnote.map fun _ => (Process.next { m.push (.restore m.env) with env } inner, Pace.busy, [])
  | all children => exact hnote.seq (m.fanOut_unaware [] children)
  | liftPromise factory onReject => exact hnote.seq (m.await_unaware factory onReject m.env)
  | matchCause inner recover k =>
    exact hnote.map fun _ => (Process.next (m.push (.fold recover k)) inner, Pace.busy, [])
  | ensuring inner finalizer => exact hnote.map fun _ => (Process.next (m.push (.finalize finalizer)) inner, Pace.busy, [])
  | interrupt =>
    exact ((hnote.seq (.record .selfInterrupted)).seq (World.interrupt_unaware m.token)).seq (m.interrupted_unaware [])
  | succeedLazy thunk =>
    refine ((hnote.seq (evaluate_unaware thunk)).map fun r =>
      (Process.next m (.leaf r), Pace.busy, [Call.thunk thunk])).congr fun w => ?_
    simp only [take, Node.calls]
    rcases evaluate thunk (w.record (.step (Node.succeedLazy thunk).kind m.frames.height)) with ⟨_ | _, v⟩ <;> rfl
  | chain inner k =>
    cases inner with
    | succeed p => exact hnote.seq (m.goOn_unaware [.apply k p] (k p))
    | succeedLazy thunk =>
      refine ((hnote.seq (evaluate_unaware thunk)).bind (g := m.handsOn thunk k) fun r => ?_).congr fun w => ?_
      · cases r with
        | ok p => exact m.goOn_unaware _ (k p)
        | error c => exact Unaware.pure (Process.next m (.fail c), Pace.busy, [Call.thunk thunk])
      · simp only [take, Node.calls]
        rcases evaluate thunk (w.record (.step (Node.chain (.succeedLazy thunk) k).kind m.frames.height)) with ⟨_ | _, v⟩ <;> rfl
    | _ => exact hnote.map fun _ => (Process.next (m.push (.apply k)) _, Pace.busy, [])

/-- Frames are popped in the same way with and without a subscription whose token is not tripped by that. -/
theorem pop_unaware (o : Outcome) : Unaware s fun w => (m.pop o w).shows L := by
  unfold pop
  cases m.frames.pop? with
  | none => exact Unaware.pure (Process.settled (m.exit o), Pace.busy, L)
  | some x =>
    obtain ⟨frame, frames⟩ := x
    cases frame with
    | finalize n =>
      exact Unaware.newToken.map fun token =>
        (Process.finalizing { m with frames } o (.start n m.env token m.interval), Pace.busy, L)
    | restore env => exact Unaware.pure (Process.popping { m with frames, env } o, Pace.busy, L)
    | apply k =>
      cases o with
      | value p => exact goOn_unaware _ L (k p)
      | failure c => exact Unaware.pure (Process.popping { m with frames } (.failure c), Pace.busy, L)
      | interruption => exact Unaware.pure (Process.popping { m with frames } .interruption, Pace.busy, L)
    | fold recover k =>
      cases o with
      | value p => exact goOn_unaware _ L (k p)
      | failure c => exact goOn_unaware _ L (recover c)
      | interruption => exact Unaware.pure (Process.popping { m with frames } .interruption, Pace.busy, L)

/-- An interpreter whose finalizer has settled goes on in the same way with and without a subscription. -/
theorem finalized_unaware (o : Outcome) (e : Exit Value Payload) : Unaware s fun w => (m.finalized o e w).shows L := by
  unfold finalized
  cases e with
  | success p => exact Unaware.pure (Process.popping m o, Pace.busy, L)
  | failure fc =>
    have hnote : Unaware s fun w => ((), w.record .finalizerFailed) := .record _
    cases o with
    | value p => exact hnote.map fun _ => (Process.next m (.fail fc), Pace.busy, L)
    | failure c => exact hnote.map fun _ => (Process.popping m (.failure (c.andThen fc)), Pace.busy, L)
    | interruption =>
      exact hnote.map fun _ => (Process.popping { m with suppressed := m.suppressed.andThen fc } .interruption, Pace.busy, L)

/-- An awaited future is left behind. -/
theorem abandon_unaware (a : Awaited) : Unaware s fun w => ((), (w.unsubscribe a.stopper).forget a.op) := by
  have hforget : Unaware s fun w => ((), w.forget a.op) := .of_tokens fun _ _ => rfl
  exact (Unaware.unsubscribe a.stopper).seq hforget

/-- What is to be seen of a turn in which an awaited future has been polled. -/
def polled (m : Interpreter) (a : Awaited) : Poll → World → (Process × Pace × List Call) × World
  | .pending rest, w => ((.awaiting m { a with future := rest }, .waiting, []), w)
  | .settled (.ok p), w => ((.next m (.succeed p), .busy, []), (w.unsubscribe a.stopper).forget a.op)
  | .settled (.error x), w =>
    (m.goOn (do return .fail (← a.onReject x)) ((w.unsubscribe a.stopper).forget a.op)).shows [.reject a.onReject x]
  | .panicked p, w => ((.next m (.die p.defect), .busy, []), (w.unsubscribe a.stopper).forget a.op)

/-- What becomes of a poll is the same with and without a subscription whose token is not tripped by that. -/
theorem polled_unaware (a : Awaited) (r : Poll) : Unaware s fun w => m.polled a r w := by
  rcases r with rest | ⟨x | p⟩ | p
  · exact Unaware.pure (Process.awaiting m { a with future := rest }, Pace.waiting, [])
  · exact (abandon_unaware a).seq (m.goOn_unaware _ _)
  · exact (abandon_unaware a).map fun _ => (Process.next m (.succeed p), Pace.busy, [])
  · exact (abandon_unaware a).map fun _ => (Process.next m (.die p.defect), Pace.busy, [])

/-- Awaited futures are polled in the same way with and without a subscription whose token is not tripped by that. -/
theorem pollAwaited_unaware (a : Awaited) : Unaware s fun w => (m.pollAwaited a w).shows (a.calls w) := by
  have hattend : Unaware s fun w => ((), w.attend a.op) := .of_tokens fun _ _ => rfl
  refine (Unaware.ite (c := fun w => w.isFired a.op) (fun _ => rfl) ((abandon_unaware a).seq (m.interrupted_unaware []))
    ((hattend.seq (a.future.poll_unaware a.op)).bind fun r => m.polled_unaware a r)).congr fun w => ?_
  simp only [pollAwaited, Awaited.calls]
  split
  · rfl
  · rcases a.future.poll a.op (w.attend a.op) with ⟨rest | ⟨x | p⟩ | p, v⟩ <;> rfl

/-- How an interpreter goes on with what its group has come to. -/
def decided (m : Interpreter) : Verdict → World → Turn
  | .succeeded values, w => { process := .next m (.succeed (.list values)), world := w }
  | .failed c, w => { process := .next m (.fail c), world := w }
  | .interrupted, w => m.interrupted (w.interrupt m.token)

/-- Groups are joined in the same way with and without a subscription of somebody else. -/
theorem joined_unaware (g : Group) (exits : List (Exit Value Payload)) : Unaware s fun w => (m.joined g exits w).shows L := by
  refine (g.unlink_unaware.seq ((Unaware.isInterrupted m.token).bind (g := fun tripped w =>
    (if tripped then m.interrupted w else m.decided (Verdict.ofExits exits) w).shows L) fun tripped => ?_)).congr fun w => ?_
  · cases tripped with
    | true => exact m.interrupted_unaware L
    | false =>
      cases Verdict.ofExits exits with
      | succeeded values => exact Unaware.pure (Process.next m (.succeed (.list values)), Pace.busy, L)
      | failed c => exact Unaware.pure (Process.next m (.fail c), Pace.busy, L)
      | interrupted => exact (World.interrupt_unaware m.token).seq (m.interrupted_unaware L)
  · cases hv : Verdict.ofExits exits <;> simp only [joined_eq, hv, decided]

/-- Rounds end in the same way with and without a subscription whose token is not tripped by that. -/
theorem endRound_unaware (g : Group) (branches : List Branch) : Unaware s fun w => (m.endRound g branches w).shows L := by
  refine ((g.afterRound_unaware branches).seq (k := fun w =>
    (if branches.length - (branches.filterMap Branch.exit?).length = 0 then m.joined g (branches.filterMap Branch.exit?) w
    else { process := .joining m { g with failed := false } [] branches, world := w, pace := .waiting }).shows L) ?_).congr
      fun w => by simp only [endRound_eq]
  split
  · exact m.joined_unaware L g _
  · exact Unaware.pure (Process.joining m { g with failed := false } [] branches, Pace.waiting, L)

/-- What is to be seen of a turn of a group, given what is to be seen of the turn of its branch. -/
def branchShown (m : Interpreter) (g : Group) (seen rest : List Branch) :
    Process × Pace × List Call → Process × Pace × List Call
  | (.settled e, _, calls) =>
    (.joining m { g with failed := g.failed || e.isFailure } (.finished e :: seen) rest, .busy, calls)
  | (p, .busy, calls) => (.joining m g seen (.running p :: rest), .busy, calls)
  | (p, .waiting, calls) => (.joining m g (.running p :: seen) rest, .busy, calls)

end Interpreter

/-- A turn is unaware of every subscription. -/
theorem Process.turn_unaware : ∀ p : Process, Unaware s p.shown
  | .next m n => by
    have hcount := (Unaware.record (s := s) (.yielding (m.instructions + 1))).seq .wakeCurrent
    refine (Unaware.ite (c := fun _ => (m.instructions + 1) % m.interval == 0) (fun _ => rfl)
      (hcount.map fun _ => (Process.counted { m with instructions := m.instructions + 1 } n, Pace.waiting, []))
      (.pure (Process.counted { m with instructions := m.instructions + 1 } n, Pace.busy, []))).congr fun w => ?_
    simp only [shown, turn, Turn.shows, calls, beq_iff_eq]
    split <;> rfl
  | .counted m n => by
    refine (Unaware.ite (c := fun w => w.isInterrupted m.token) (fun w => World.isInterrupted_unsubscribe w s m.token)
      (m.interrupted_unaware []) (m.take_unaware n)).congr fun w => ?_
    simp only [shown, turn, calls]
    split <;> rfl
  | .popping m o => m.pop_unaware _ o
  | .finalizing m o child => by
    cases hx : child.exit? with
    | some e =>
      obtain rfl := Process.exit?_eq_some hx
      exact m.finalized_unaware [] o e
    | none =>
      refine ((turn_unaware child).map fun x => (Process.finalizing m o x.1, x.2)).congr fun w => ?_
      simp only [shown, turn_finalizing m o hx]
      rfl
  | .awaiting m a => m.pollAwaited_unaware a
  | .joining m g seen [] => m.endRound_unaware [] g seen.reverse
  | .joining m g seen (.finished e :: rest) => .pure (Process.joining m g (.finished e :: seen) rest, Pace.busy, [])
  | .joining m g seen (.running p :: rest) => by
    refine ((turn_unaware p).map (m.branchShown g seen rest)).congr fun w => ?_
    simp only [shown, turn, Turn.shows, calls]
    rcases p.turn w with ⟨q, v, pace⟩
    cases q <;> cases pace <;> rfl
  | .settled e => .pure (Process.settled e, Pace.waiting, [])

end Interruptible
