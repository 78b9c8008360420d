import Interruptible.Proofs.Machine.Nested
import Interruptible.Proofs.Machine.Calls
import Interruptible.Proofs.Machine.Frames
import Interruptible.Proofs.World.Panics

/-!
# Trees whose callbacks panic

A tree is mended by letting its callbacks return the failure with the defect where they would panic, and its listeners be done
there (`Node.mended`). A mended tree runs like the tree, turn by turn (`Process.turn_mended`): it calls the same callbacks with the
same arguments, starts the same finalizers and leads to the same exits, and the worlds differ in nothing but what panics in
listeners have left. So two trees that become the same when they are mended cannot be told apart by their runs
(`Process.Run.mended`). What panics in the factories of host futures and in polls lead to is what rejections lead to that are
mapped to the defects (`Interpreter.rejectsPanics`).
-/

namespace Interruptible

/-! ## Mended trees -/

/-- A lazy success that fails with the defect where it would panic. -/
def Action.mendedThunk : Action (Except (Cause Value) Payload) → Action (Except (Cause Value) Payload) :=
  Action.repaired (fun p => .pure (.error (.die p.defect))) id

/-- A mapper of rejections that gives the defect where it would panic. -/
def Action.mendedReject : Action (Cause Value) → Action (Cause Value) :=
  Action.repaired (fun p => .pure (.die p.defect)) id

/-- The factory of a host future, whose listeners do not panic. -/
def Action.mendedFactory : Action Future → Action Future := Action.repaired .panic Future.mended

mutual
/-- A tree in which no callback of a node panics, and no listener. A callback that would panic fails with the defect instead. -/
def Node.mended : Node → Node
  | .succeed p => .succeed p
  | .succeedLazy thunk => .succeedLazy thunk.mendedThunk
  | .fail c => .fail c
  | .interrupt => .interrupt
  | .asks read => .asks fun env => Action.mended (read env)
  | .give inner env => .give inner.mended env
  | .all children => .all (Node.allMended children)
  | .defer factory => .defer (Action.mended factory)
  | .liftPromise factory onReject => .liftPromise (fun op => (factory op).mendedFactory) fun x => (onReject x).mendedReject
  | .chain inner k => .chain inner.mended fun p => Action.mended (k p)
  | .matchCause inner recover k => .matchCause inner.mended (fun c => Action.mended (recover c)) fun p => Action.mended (k p)
  | .ensuring inner finalizer => .ensuring inner.mended finalizer.mended

/-- A callback that builds the failure with the defect where it would panic. -/
def Action.mended : Action Node → Action Node
  | .pure n => .pure n.mended
  | .panic p => .pure (.die p.defect)
  | .ask c next => .ask c fun r => Action.mended (next r)
  | .subscribe t l next => .subscribe t l.mended fun r => Action.mended (next r)
  | .register op l next => .register op l.mended (Action.mended next)

/-- The children of a group, mended. -/
def Node.allMended : List Node → List Node
  | [] => []
  | n :: ns => n.mended :: Node.allMended ns
end

/-- A frame whose callbacks do not panic. -/
def Frame.mended : Frame → Frame
  | .apply k => .apply fun p => (k p).mended
  | .fold recover k => .fold (fun c => (recover c).mended) fun p => (k p).mended
  | .finalize n => .finalize n.mended
  | .restore env => .restore env

/-- A stack of mended frames. -/
def FrameStack.mended (s : FrameStack) : FrameStack where
  frames := s.frames.map Frame.mended
  height := s.height
  height_eq := by rw [List.length_map, s.height_eq]

/-- An interpreter with mended frames. -/
def Interpreter.mended (m : Interpreter) : Interpreter := { m with frames := m.frames.mended }

/-- An awaited future whose listeners and whose mapper of rejections do not panic. -/
def Awaited.mended (a : Awaited) : Awaited :=
  { a with future := a.future.mended, onReject := fun x => (a.onReject x).mendedReject }

mutual
/-- A process in which no callback of what is left of its tree panics, and no listener. -/
def Process.mended : Process → Process
  | .next m n => .next m.mended n.mended
  | .counted m n => .counted m.mended n.mended
  | .popping m o => .popping m.mended o
  | .finalizing m o child => .finalizing m.mended o child.mended
  | .awaiting m a => .awaiting m.mended a.mended
  | .joining m g seen rest => .joining m.mended g (Branch.mended seen) (Branch.mended rest)
  | .settled e => .settled e

/-- The branches of a group, mended. -/
def Branch.mended : List Branch → List Branch
  | [] => []
  | .running p :: bs => .running p.mended :: Branch.mended bs
  | .finished e :: bs => .finished e :: Branch.mended bs
end

/-- What a turn leaves, mended. -/
def Turn.mended (r : Turn) : Turn := { r with process := r.process.mended, world := r.world.mended }

/-- Turns of mended processes in mended worlds. -/
def History.mended (h : History) : History := h.map fun y => (y.1.mended, y.2.mended)

/-! ## What mended callbacks do -/

/-- The children of a group are mended one by one. -/
theorem Node.allMended_eq (ns : List Node) : Node.allMended ns = ns.map Node.mended := by
  induction ns with
  | nil => simp [Node.allMended]
  | cons n ns ih => simp [Node.allMended, ih]

/-- A mended node is of the same kind, so the records of the steps are the same. -/
theorem Node.kind_mended (n : Node) : n.mended.kind = n.kind := by
  cases n <;> simp [Node.mended, Node.kind]

/-- A mended callback is one that has been repaired, with the failure in place of the panic. -/
theorem Action.mended_eq (a : Action Node) : a.mended = a.repaired (fun p => .pure (.die p.defect)) Node.mended := by
  induction a with
  | pure n => simp [Action.mended, Action.repaired]
  | panic p => simp [Action.mended, Action.repaired]
  | ask c next ih => simp [Action.mended, Action.repaired, ih]
  | subscribe t l next ih => simp [Action.mended, Action.repaired, ih]
  | register op l next ih => simp [Action.mended, Action.repaired, ih]

/-- A mended callback builds the tree that the callback builds, mended. A panic is a defect in both cases. -/
theorem guarded_mended (a : Action Node) (w : World) :
    guarded a.mended w.mended = ((guarded a w).1.mended, (guarded a w).2.mended) := by
  unfold guarded
  rw [Action.mended_eq, Action.run_repaired]
  rcases a.run w with ⟨p | n, v⟩
  · simp [Action.run, Node.die, Node.mended]
  · rfl

/-- A mended lazy success evaluates to the same result; the panic that it would have been reported as is its failure. -/
theorem evaluate_mended (thunk : Action (Except (Cause Value) Payload)) (w : World) :
    evaluate thunk.mendedThunk w.mended = ((evaluate thunk w).1, (evaluate thunk w).2.mended) := by
  unfold evaluate Action.mendedThunk
  rw [Action.run_repaired]
  rcases thunk.run w with ⟨p | r, v⟩ <;> rfl

/-- The failure that a rejection is turned into. -/
theorem Action.mended_fail (a : Action (Cause Value)) :
    Action.mended (do return Node.fail (← a)) = do return Node.fail (← a.mendedReject) := by
  change Action.mended (a.bind fun c => .pure (.fail c)) = a.mendedReject.bind fun c => .pure (.fail c)
  induction a with
  | pure c => simp [Action.bind, Action.mended, Action.mendedReject, Action.repaired, Node.mended]
  | panic p => simp [Action.bind, Action.mended, Action.mendedReject, Action.repaired, Node.die]
  | ask c next ih =>
    simp only [Action.bind, Action.mended, Action.mendedReject, Action.repaired] at ih ⊢
    simp only [ih]
  | subscribe t l next ih =>
    simp only [Action.bind, Action.mended, Action.mendedReject, Action.repaired] at ih ⊢
    simp only [ih]
  | register op l next ih =>
    simp only [Action.bind, Action.mended, Action.mendedReject, Action.repaired] at ih ⊢
    rw [ih]

/-- A mended stack gives out the frame on its top, mended. -/
theorem FrameStack.pop?_mended (s : FrameStack) : s.mended.pop? = s.pop?.map fun x => (x.1.mended, x.2.mended) := by
  obtain ⟨frames, height, hs⟩ := s
  cases frames with
  | nil => rfl
  | cons f fs => rfl

/-! ## Mended interpreters -/

namespace Interpreter

variable (m : Interpreter)

/-- A mended interpreter observes interruption as it would otherwise. -/
theorem interrupted_mended (w : World) : m.mended.interrupted w.mended = (m.interrupted w).mended := by
  simp only [interrupted, Turn.mended, Process.mended]
  rw [← w.record_mended rfl]
  rfl

/-- A mended interpreter goes on with a mended callback as it would otherwise: the failure stands where the panic would be
reported. -/
theorem goOn_mended (a : Action Node) (w : World) : m.mended.goOn a.mended w.mended = (m.goOn a w).mended := by
  simp only [goOn, guarded_mended]
  rfl

/-- A mended interpreter begins to wait for a host future as it would otherwise. -/
theorem await_mended (factory : OperationId → Action Future) (onReject : Value → Action (Cause Value)) (w : World) :
    m.mended.await (fun op => (factory op).mendedFactory) (fun x => (onReject x).mendedReject) w.mended =
      (m.await factory onReject w).mended := by
  have hreact (op : OperationId) (v : World) := v.react_mended m.token (.stop op)
  simp only [Reaction.mended] at hreact
  have htoken : m.mended.token = m.token := rfl
  simp only [await, htoken, World.newOperation_mended, hreact]
  rcases w.newOperation.2.react m.token (.stop w.newOperation.1) with ⟨_ | s, v⟩
  · dsimp only
    rw [v.record_mended rfl]
    exact m.interrupted_mended _
  · dsimp only [Action.mendedFactory]
    rw [Action.run_repaired]
    rcases (factory w.newOperation.1).run v with ⟨p | f, u⟩
    · simp only [Action.run, Turn.mended, Process.mended, Node.die, Node.mended, u.unsubscribe_mended]
    · rfl

/-- A mended interpreter starts the branches of a group as it would otherwise, each of them mended. -/
theorem fanOut_mended (children : List Node) (w : World) :
    m.mended.fanOut (Node.allMended children) w.mended = (m.fanOut children w).mended := by
  have hbranches (t : TokenId) : Branch.mended (children.map fun n => .running (.start n m.env t m.interval)) =
      (Node.allMended children).map fun n => .running (.start n m.env t m.interval) := by
    induction children with
    | nil => rfl
    | cons n ns ih =>
      simp only [List.map_cons, Branch.mended, Node.allMended, ih]
      rfl
  have hreact (child : TokenId) (v : World) := v.react_mended m.token (.forward child)
  simp only [Reaction.mended] at hreact
  have htoken : m.mended.token = m.token := rfl
  have henv : m.mended.env = m.env := rfl
  have hinterval : m.mended.interval = m.interval := rfl
  simp only [fanOut, htoken, henv, hinterval, World.newToken_mended, hreact, Turn.mended, Process.mended, hbranches]
  rw [← World.record_mended _ rfl]
  simp [Node.allMended_eq, Branch.mended]

/-- Taking a mended node is to take the node. -/
theorem take_mended (n : Node) (w : World) : m.mended.take n.mended w.mended = (m.take n w).mended := by
  unfold take
  rw [n.kind_mended, show m.mended.frames.height = m.frames.height from rfl, w.record_mended rfl]
  generalize w.record (.step n.kind m.frames.height) = w
  cases n with
  | chain inner k =>
    cases inner with
    | succeed p => exact goOn_mended m (k p) w
    | succeedLazy thunk =>
      simp only [Node.mended, evaluate_mended]
      rcases evaluate thunk w with ⟨c | p, v⟩
      · rfl
      · exact goOn_mended m _ _
    | _ => rfl
  | succeedLazy thunk =>
    simp only [Node.mended, evaluate_mended]
    rcases evaluate thunk w with ⟨c | p, v⟩ <;> rfl
  | interrupt =>
    dsimp only [Node.mended]
    rw [w.record_mended rfl, show m.mended.token = m.token from rfl, World.interrupt_mended]
    exact m.interrupted_mended _
  | asks read => exact goOn_mended m (read m.env) w
  | defer factory => exact goOn_mended m factory w
  | all children => exact fanOut_mended m children w
  | liftPromise factory onReject => exact await_mended m factory onReject w
  | _ => rfl

/-- Popping a mended frame is to pop the frame. -/
theorem pop_mended (o : Outcome) (w : World) : m.mended.pop o w.mended = (m.pop o w).mended := by
  unfold pop
  rw [show m.mended.frames.pop? = m.frames.mended.pop? from rfl, FrameStack.pop?_mended]
  cases m.frames.pop? with
  | none => rfl
  | some x =>
    obtain ⟨f, s⟩ := x
    cases f with
    | finalize n =>
      dsimp only [Option.map_some, Frame.mended]
      rw [w.newToken_mended]
      rfl
    | restore env => rfl
    | apply k =>
      cases o with
      | value p => exact goOn_mended { m with frames := s } (k p) w
      | _ => rfl
    | fold recover k =>
      cases o with
      | value p => exact goOn_mended { m with frames := s } (k p) w
      | failure c => exact goOn_mended { m with frames := s } (recover c) w
      | interruption => rfl

/-- A mended interpreter goes on after a finalizer as it would otherwise. -/
theorem finalized_mended (o : Outcome) (e : Exit Value Payload) (w : World) :
    m.mended.finalized o e w.mended = (m.finalized o e w).mended := by
  cases e with
  | success p => rfl
  | failure c =>
    simp only [finalized]
    rw [w.record_mended rfl]
    cases o <;> rfl

/-- What becomes of an awaited future that has settled or panicked. -/
theorem pollAwaited_mended (a : Awaited) (w : World) : m.mended.pollAwaited a.mended w.mended = (m.pollAwaited a w).mended := by
  have hend (v : World) : (v.mended.unsubscribe a.mended.stopper).forget a.mended.op = ((v.unsubscribe a.stopper).forget a.op).mended :=
    (congrArg (World.forget · a.op) (v.unsubscribe_mended a.stopper)).trans (World.forget_mended _ a.op)
  unfold pollAwaited
  rw [show a.mended.op = a.op from rfl, w.isFired_mended, w.attend_mended, show a.mended.future = a.future.mended from rfl,
    Future.poll_mended]
  split
  · rw [show (w.mended.unsubscribe a.mended.stopper).forget a.op = _ from hend w]
    exact m.interrupted_mended _
  · rcases a.future.poll a.op (w.attend a.op) with ⟨rest | (x | p) | p, v⟩
    · rfl
    · have hreject := m.goOn_mended (do return .fail (← a.onReject x)) ((v.unsubscribe a.stopper).forget a.op)
      rw [Action.mended_fail, ← hend] at hreject
      exact hreject
    · exact congrArg (Turn.mk _ · _) (hend v)
    · exact congrArg (Turn.mk _ · _) (hend v)

/-- A mended interpreter goes on after a group as it would otherwise. -/
theorem joined_mended (g : Group) (exits : List (Exit Value Payload)) (w : World) :
    m.mended.joined g exits w.mended = (m.joined g exits w).mended := by
  have hunlink : g.unlink w.mended = (g.unlink w).mended := by
    unfold Group.unlink
    split
    · exact w.unsubscribe_mended _
    · rfl
  rw [joined_eq, joined_eq, show m.mended.token = m.token from rfl, hunlink, World.isInterrupted_mended]
  split
  · exact m.interrupted_mended _
  · split
    · rfl
    · rfl
    · rw [World.interrupt_mended]
      exact m.interrupted_mended _

end Interpreter

/-! ## Turns of mended processes -/

/-- Branches that are put together are mended each for itself. -/
theorem Branch.mended_append (bs cs : List Branch) : Branch.mended (bs ++ cs) = Branch.mended bs ++ Branch.mended cs := by
  induction bs with
  | nil => rfl
  | cons b bs ih => cases b <;> simp [Branch.mended, ih]

/-- The order of the branches does not matter to mending them. -/
theorem Branch.mended_reverse (bs : List Branch) : Branch.mended bs.reverse = (Branch.mended bs).reverse := by
  induction bs with
  | nil => rfl
  | cons b bs ih => cases b <;> simp [Branch.mended, Branch.mended_append, ih]

/-- The exits of finished branches are not mended. -/
theorem Branch.exits_mended (bs : List Branch) : (Branch.mended bs).filterMap Branch.exit? = bs.filterMap Branch.exit? := by
  induction bs with
  | nil => rfl
  | cons b bs ih => cases b <;> simp [Branch.mended, Branch.exit?, List.filterMap_cons, ih]

/-- No branch is lost when branches are mended. -/
theorem Branch.length_mended (bs : List Branch) : (Branch.mended bs).length = bs.length := by
  induction bs with
  | nil => rfl
  | cons b bs ih => cases b <;> simp [Branch.mended, ih]

/-- At the end of a round the token of a group is tripped or not, whether or not the branches have been mended. -/
theorem Group.afterRound_mended (g : Group) (bs : List Branch) (w : World) :
    g.afterRound (Branch.mended bs) w.mended = (g.afterRound bs w).mended := by
  unfold afterRound
  rw [Branch.exits_mended, Branch.length_mended, w.isInterrupted_mended]
  split
  · rw [w.record_mended rfl, World.interrupt_mended]
  · rfl

/-- A mended interpreter ends a round of its group as it would otherwise. -/
theorem Interpreter.endRound_mended (m : Interpreter) (g : Group) (bs : List Branch) (w : World) :
    m.mended.endRound g (Branch.mended bs) w.mended = (m.endRound g bs w).mended := by
  rw [endRound_eq, endRound_eq, Group.afterRound_mended, Branch.exits_mended, Branch.length_mended]
  split
  · exact joined_mended m g _ _
  · rfl

/-- What has settled is not mended. -/
theorem Process.exit?_mended (p : Process) : p.mended.exit? = p.exit? := by
  cases p <;> rfl

/-- A mended interpreter is about to take the mended node, and yields when it would otherwise. -/
theorem Process.turn_next_mended (m : Interpreter) (n : Node) (w : World) :
    Process.turn (Process.next m n).mended w.mended = (Process.turn (.next m n) w).mended := by
  by_cases h : (m.instructions + 1) % m.interval = 0
  · have h' : (m.mended.instructions + 1) % m.mended.interval = 0 := h
    simp only [Process.mended, Process.turn]
    rw [if_pos h, if_pos h']
    exact congrArg (Turn.mk _ · _) ((congrArg World.wakeCurrent (w.record_mended rfl)).trans (World.wakeCurrent_mended _))
  · have h' : ¬ (m.mended.instructions + 1) % m.mended.interval = 0 := h
    simp only [Process.mended, Process.turn]
    rw [if_neg h, if_neg h']
    rfl

/-- A group whose branch takes its turn as it would otherwise does so, too. -/
theorem Process.turn_joining_mended (m : Interpreter) (g : Group) (seen rest : List Branch) {p : Process} {w : World}
    (hp : p.mended.turn w.mended = (p.turn w).mended) :
    Process.turn (Process.joining m g seen (.running p :: rest)).mended w.mended =
      (Process.turn (.joining m g seen (.running p :: rest)) w).mended := by
  simp only [Process.mended, Branch.mended, Process.turn, hp]
  obtain ⟨q, v, pace⟩ := p.turn w
  cases q <;> cases pace <;> rfl

/-- A turn of a mended process in a mended world leads to what the turn leads to otherwise, mended: a panic in a callback of a
node is the defect in its place, and one in a listener or a hook is of no consequence. -/
theorem Process.turn_mended (p : Process) (w : World) : p.mended.turn w.mended = (p.turn w).mended := by
  induction p, w using Process.turn.induct with
  | case1 m n w m' h => exact turn_next_mended m n w
  | case2 m n w m' h => exact turn_next_mended m n w
  | case3 m n w h =>
    have h' : w.mended.isInterrupted m.mended.token = true := (w.isInterrupted_mended m.token).trans h
    simp only [Process.mended, Process.turn]
    rw [if_pos h, if_pos h']
    exact m.interrupted_mended w
  | case4 m n w h =>
    have h' : ¬ w.mended.isInterrupted m.mended.token = true := fun h' => h ((w.isInterrupted_mended m.token).symm.trans h')
    simp only [Process.mended, Process.turn]
    rw [if_neg h, if_neg h']
    exact m.take_mended n w
  | case5 m o w => exact m.pop_mended o w
  | case6 m o e w => exact m.finalized_mended o e w
  | case7 m o child w hc ih =>
    have hx : child.exit? = none := Process.exit?_eq_none hc
    rw [Process.mended, Process.turn_finalizing _ _ hx, Process.turn_finalizing _ _ (by rw [Process.exit?_mended, hx]), ih]
    rfl
  | case8 m a w => exact m.pollAwaited_mended a w
  | case9 m g seen w =>
    simp only [Process.mended, Branch.mended, Process.turn]
    rw [← Branch.mended_reverse]
    exact m.endRound_mended g _ w
  | case10 m g seen e rest w => rfl
  | case11 m g seen p rest w t e he ih => exact turn_joining_mended m g seen rest ih
  | case12 m g seen p rest w t hpace hns ih => exact turn_joining_mended m g seen rest ih
  | case13 m g seen p rest w t hpace hns ih => exact turn_joining_mended m g seen rest ih
  | case14 e w => rfl

/-! ## What is called, and what happens to the frames -/

/-- A call of a mended callback. -/
def Call.mended : Call → Call
  | .thunk a => .thunk a.mendedThunk
  | .factory a => .factory a.mended
  | .read k env => .read (fun env => (k env).mended) env
  | .apply k p => .apply (fun p => (k p).mended) p
  | .recover k c => .recover (fun c => (k c).mended) c
  | .promise k op => .promise (fun op => (k op).mendedFactory) op
  | .reject onReject x => .reject (fun x => (onReject x).mendedReject) x

/-- What happens to a mended frame. -/
def FrameEvent.mended : FrameEvent → FrameEvent
  | .pushed f => .pushed f.mended
  | .popped f => .popped f.mended
  | .finalized e => .finalized e

/-- When a mended node is taken, the same callbacks are called with the same arguments, mended. -/
theorem Node.calls_mended (env : Environment) (t : TokenId) (n : Node) (w : World) :
    n.mended.calls env t w.mended = (n.calls env t w).map Call.mended := by
  cases n with
  | chain inner k =>
    cases inner with
    | succeedLazy thunk =>
      simp only [Node.mended, Node.calls, evaluate_mended]
      rcases (evaluate thunk w).1 with c | p <;> rfl
    | _ => rfl
  | liftPromise factory onReject =>
    have hreact (op : OperationId) (v : World) := v.react_mended t (.stop op)
    simp only [Reaction.mended] at hreact
    simp only [Node.mended, Node.calls, World.newOperation_mended, hreact]
    rcases (w.newOperation.2.react t (.stop w.newOperation.1)).1 with _ | s <;> rfl
  | _ => rfl

/-- When a mended frame is popped, the same callback is called with the same argument. -/
theorem Frame.calls_mended (f : Frame) (o : Outcome) : f.mended.calls o = (f.calls o).map Call.mended := by
  cases f <;> cases o <;> rfl

/-- A mended future rejects when it would otherwise, and its mapper is called with the same value. -/
theorem Awaited.calls_mended (a : Awaited) (w : World) : a.mended.calls w.mended = (a.calls w).map Call.mended := by
  unfold Awaited.calls
  rw [show a.mended.op = a.op from rfl, w.isFired_mended, w.attend_mended, show a.mended.future = a.future.mended from rfl,
    Future.poll_mended]
  split
  · rfl
  · rcases (a.future.poll a.op (w.attend a.op)).1 with rest | (x | p) | p <;> rfl

/-- In a turn of a mended process the same callbacks are called as otherwise, mended. -/
theorem Process.calls_mended (p : Process) (w : World) : p.mended.calls w.mended = (p.calls w).map Call.mended := by
  induction p, w using Process.calls.induct with
  | case1 m n w h =>
    have h' : w.mended.isInterrupted m.mended.token = true := (w.isInterrupted_mended m.token).trans h
    simp only [Process.mended, calls, h, h', if_true, List.map_nil]
  | case2 m n w h =>
    have h' : ¬ w.mended.isInterrupted m.mended.token = true := fun h' => h ((w.isInterrupted_mended m.token).symm.trans h')
    simp only [Process.mended, calls]
    rw [if_neg h, if_neg h', n.kind_mended, w.record_mended rfl]
    exact n.calls_mended _ _ _
  | case3 m o w =>
    simp only [Process.mended, calls, show m.mended.frames.frames = m.frames.frames.map Frame.mended from rfl]
    rcases m.frames.frames with _ | ⟨f, fs⟩
    · rfl
    · exact f.calls_mended o
  | case4 m o child w ih => exact ih
  | case5 m a w => exact a.calls_mended w
  | case6 m g seen q rest w ih => exact ih
  | case7 p w h₁ h₂ h₃ h₄ h₅ =>
    cases p with
    | counted m n => exact absurd rfl (h₁ m n)
    | popping m o => exact absurd rfl (h₂ m o)
    | finalizing m o child => exact absurd rfl (h₃ m o child)
    | awaiting m a => exact absurd rfl (h₄ m a)
    | joining m g seen rest =>
      rcases rest with _ | ⟨q | e, rest⟩
      · rfl
      · exact absurd rfl (h₅ m g seen q rest)
      · rfl
    | _ => rfl

/-- A mended node pushes its frame, mended. -/
theorem Node.frame?_mended (env : Environment) (n : Node) : n.mended.frame? env = (n.frame? env).map Frame.mended := by
  cases n with
  | chain inner k => cases inner <;> rfl
  | _ => rfl

/-- In a turn of a mended process the same frames are pushed and popped as otherwise, mended. -/
theorem Process.frameEvents_mended (p : Process) (w : World) :
    p.mended.frameEvents w.mended = (p.frameEvents w).map FrameEvent.mended := by
  cases p with
  | counted m n =>
    simp only [Process.mended, frameEvents, show m.mended.token = m.token from rfl, w.isInterrupted_mended]
    split
    · rfl
    · rw [show m.mended.env = m.env from rfl, n.frame?_mended]
      cases n.frame? m.env <;> rfl
  | popping m o =>
    simp only [Process.mended, frameEvents, show m.mended.frames.frames = m.frames.frames.map Frame.mended from rfl]
    rcases m.frames.frames with _ | ⟨f, fs⟩ <;> rfl
  | finalizing m o child => cases child <;> rfl
  | _ => rfl

/-- The turns that a turn of a mended process consists of are those of the process, mended. -/
theorem Process.turns_mended (p : Process) (w : World) : p.mended.turns w.mended = (p.turns w).mended := by
  induction p, w using Process.turns.induct with
  | case2 m o child w ih =>
    simp only [Process.mended, Process.turns, History.mended, List.map_cons] at ih ⊢
    rw [ih]
  | case3 m g seen q rest w ih =>
    simp only [Process.mended, Branch.mended, Process.turns, History.mended, List.map_cons] at ih ⊢
    rw [ih]
  | _ => rfl

namespace History

/-- In the course of mended turns the same callbacks are called as otherwise, mended. -/
theorem calls_mended (h : History) : h.mended.calls = h.calls.map Call.mended := by
  simp only [calls, mended, List.flatMap_map, List.map_flatMap, Process.calls_mended]

/-- In the course of mended turns the same frames are pushed and popped as otherwise, mended. -/
theorem frameEvents_mended (h : History) : h.mended.frameEvents = h.frameEvents.map FrameEvent.mended := by
  simp only [frameEvents, mended, List.flatMap_map, List.map_flatMap, Process.frameEvents_mended]

/-- The turns of all interpreters in the course of mended turns are mended themselves. -/
theorem turns_mended (h : History) : h.mended.turns = h.turns.mended := by
  simp only [turns, mended, List.flatMap_map, List.map_flatMap, Process.turns_mended]

end History

/-! ## Trees that have been mended -/

/-- There is nothing left to be mended in a mended listener. -/
theorem Listener.mended_mended (l : Listener) : l.mended.mended = l.mended := by
  induction l with
  | done => rfl
  | panic p => rfl
  | ask c next ih => simp only [Listener.mended, ih]
  | subscribe t l next ihl ihn => simp only [Listener.mended, ihl, ihn]
  | register op l next ihl ihn => simp only [Listener.mended, ihl, ihn]

/-- There is nothing left to be mended in a mended future. -/
theorem Future.mended_mended (f : Future) : f.mended.mended = f.mended := by
  induction f with
  | settle r => rfl
  | panic p => rfl
  | never => rfl
  | ask c next ih => simp only [Future.mended, ih]
  | subscribe t l next ih => simp only [Future.mended, l.mended_mended, ih]
  | register op l next ih => simp only [Future.mended, l.mended_mended, ih]
  | sleep ms next ih => simp only [Future.mended, ih]
  | sleepUntil deadline next ih => simp only [Future.mended, ih]
  | yield times next ih => simp only [Future.mended, ih]
  | wait s next ih => simp only [Future.mended, ih]

/-- Repairing a callback that has been repaired changes nothing more. -/
theorem Action.repaired_repaired {α : Type} {onPanic : Panic → Action α} {f : α → α} (hf : ∀ x, f (f x) = f x)
    (hp : ∀ p, (onPanic p).repaired onPanic f = onPanic p) (a : Action α) :
    (a.repaired onPanic f).repaired onPanic f = a.repaired onPanic f := by
  induction a with
  | pure x => simp only [Action.repaired, hf]
  | panic p => exact hp p
  | ask c next ih => simp only [Action.repaired, ih]
  | subscribe t l next ih => simp only [Action.repaired, l.mended_mended, ih]
  | register op l next ih => simp only [Action.repaired, l.mended_mended, ih]

/-- Nor is there in a mended lazy success. -/
theorem Action.mendedThunk_mendedThunk (a : Action (Except (Cause Value) Payload)) :
    a.mendedThunk.mendedThunk = a.mendedThunk :=
  a.repaired_repaired (fun _ => rfl) fun _ => rfl

/-- Nor in a mended mapper of rejections. -/
theorem Action.mendedReject_mendedReject (a : Action (Cause Value)) : a.mendedReject.mendedReject = a.mendedReject :=
  a.repaired_repaired (fun _ => rfl) fun _ => rfl

/-- Nor in the mended factory of a host future. -/
theorem Action.mendedFactory_mendedFactory (a : Action Future) : a.mendedFactory.mendedFactory = a.mendedFactory :=
  a.repaired_repaired Future.mended_mended fun _ => rfl

mutual
/-- No panic is left in a tree that has been mended. -/
theorem Node.mended_mended : (n : Node) → n.mended.mended = n.mended
  | .succeed p => by simp only [Node.mended]
  | .succeedLazy thunk => by simp only [Node.mended, thunk.mendedThunk_mendedThunk]
  | .fail c => by simp only [Node.mended]
  | .interrupt => by simp only [Node.mended]
  | .asks read => by simp only [Node.mended, fun env => Action.mended_mended (read env)]
  | .give inner env => by simp only [Node.mended, inner.mended_mended]
  | .all children => by simp only [Node.mended, Node.allMended_allMended children]
  | .defer factory => by simp only [Node.mended, Action.mended_mended factory]
  | .liftPromise factory onReject => by
    simp only [Node.mended, Action.mendedFactory_mendedFactory, Action.mendedReject_mendedReject]
  | .chain inner k => by simp only [Node.mended, inner.mended_mended, fun p => Action.mended_mended (k p)]
  | .matchCause inner recover k => by
    simp only [Node.mended, inner.mended_mended, fun c => Action.mended_mended (recover c), fun p => Action.mended_mended (k p)]
  | .ensuring inner finalizer => by simp only [Node.mended, inner.mended_mended, finalizer.mended_mended]

/-- Nor in a mended callback, or the tree that it builds. -/
theorem Action.mended_mended : (a : Action Node) → a.mended.mended = a.mended
  | .pure n => by simp only [Action.mended, n.mended_mended]
  | .panic p => by simp only [Action.mended, Node.die, Node.mended]
  | .ask c next => by simp only [Action.mended, fun r => Action.mended_mended (next r)]
  | .subscribe t l next => by simp only [Action.mended, l.mended_mended, fun r => Action.mended_mended (next r)]
  | .register op l next => by simp only [Action.mended, l.mended_mended, Action.mended_mended next]

/-- Nor in the mended children of a group. -/
theorem Node.allMended_allMended : (ns : List Node) → Node.allMended (Node.allMended ns) = Node.allMended ns
  | [] => by simp only [Node.allMended]
  | n :: ns => by simp only [Node.allMended, n.mended_mended, Node.allMended_allMended ns]
end

/-! ## Runs of trees that differ in panics -/

/-- Two processes in two worlds that become the same when all panics are mended stay so in the course of a run, if whatever the
others do to the one world they can do to the other. -/
theorem Process.Run.mended {R R' : World → World → Prop}
    (hR : ∀ a b a', R a b → a'.mended = a.mended → ∃ b', R' a' b' ∧ b'.mended = b.mended) {p q : Process} {w v : World}
    {h : History} (run : Run R p w h q v) {p' : Process} {w' : World} (hp : p'.mended = p.mended) (hw : w'.mended = w.mended) :
    ∃ h' q' v', Run R' p' w' h' q' v' ∧ h'.mended = h.mended ∧ q'.mended = q.mended ∧ v'.mended = v.mended := by
  induction run generalizing p' w' with
  | done p w => exact ⟨[], p', w', .done p' w', rfl, hp, hw⟩
  | @turn p q w v h hx _ ih =>
    have hturn : (p'.turn w').mended = (p.turn w).mended := by rw [← turn_mended, ← turn_mended, hp, hw]
    obtain ⟨h', q', v', run', hh, hq, hv⟩ := ih (congrArg Turn.process hturn) (congrArg Turn.world hturn)
    refine ⟨(p', w') :: h', q', v', .turn ?_ run', ?_, hq, hv⟩
    · rw [← exit?_mended, hp, exit?_mended, hx]
    · simp only [History.mended, List.map_cons, hp, hw] at hh ⊢
      rw [hh]
  | moved hm _ ih =>
    obtain ⟨b', hm', hb⟩ := hR _ _ _ hm hw
    obtain ⟨h', q', v', run', hh, hq, hv⟩ := ih hp hb
    exact ⟨h', q', v', .moved hm' run', hh, hq, hv⟩

/-! ## Panics of host futures -/

/-- The future that rejects where another one panics. -/
def Future.rejecting (reject : Panic → Value) : Future → Future
  | .settle r => .settle r
  | .panic p => .settle (.error (reject p))
  | .never => .never
  | .ask c next => .ask c fun r => (next r).rejecting reject
  | .subscribe t l next => .subscribe t l fun r => (next r).rejecting reject
  | .register op l next => .register op l (next.rejecting reject)
  | .sleep ms next => .sleep ms (next.rejecting reject)
  | .sleepUntil deadline next => .sleepUntil deadline (next.rejecting reject)
  | .yield times next => .yield times (next.rejecting reject)
  | .wait s next => .wait s (next.rejecting reject)

/-- The factory that makes a future which rejects at once where another factory panics. -/
def Action.rejecting (reject : Panic → Value) : Action Future → Action Future
  | .pure f => .pure f
  | .panic p => .pure (.settle (.error (reject p)))
  | .ask c next => .ask c fun r => (next r).rejecting reject
  | .subscribe t l next => .subscribe t l fun r => (next r).rejecting reject
  | .register op l next => .register op l (next.rejecting reject)

/-- What the poll of such a future comes to. -/
def Poll.rejecting (reject : Panic → Value) : Poll → Poll
  | .pending rest => .pending (rest.rejecting reject)
  | .settled r => .settled r
  | .panicked p => .settled (.error (reject p))

/-- A future that rejects where another one panics is polled like that one, and only what the poll comes to is changed. -/
theorem Future.poll_rejecting (reject : Panic → Value) (op : OperationId) (f : Future) (w : World) :
    (f.rejecting reject).poll op w = ((f.poll op w).1.rejecting reject, (f.poll op w).2) := by
  induction f generalizing w with
  | settle r => rfl
  | panic p => rfl
  | never => rfl
  | ask c next ih => exact ih _ _
  | subscribe t l next ih => exact ih _ _
  | register h l next ih =>
    simp only [Future.rejecting, Future.poll]
    rcases w.addHook h l with ⟨_ | _, v⟩ <;> exact ih _
  | sleep ms next ih =>
    simp only [Future.rejecting, Future.poll]
    split
    · exact ih w
    · rfl
  | sleepUntil deadline next ih =>
    simp only [Future.rejecting, Future.poll]
    split
    · exact ih w
    · rfl
  | yield n next ih =>
    cases n with
    | zero => exact ih w
    | succ n => rfl
  | wait s next ih =>
    simp only [Future.rejecting, Future.poll]
    split
    · exact ih w
    · rfl

/-- A factory that builds futures which reject instead of panicking does what the factory itself does. -/
theorem Action.run_rejecting (reject : Panic → Value) (a : Action Future) (w : World) :
    (a.rejecting reject).run w =
      match a.run w with
      | (.ok f, v) => (.ok f, v)
      | (.error p, v) => (.ok (.settle (.error (reject p))), v) := by
  induction a generalizing w with
  | pure f => rfl
  | panic p => rfl
  | ask c next ih => exact ih _ _
  | subscribe t l next ih => exact ih _ _
  | register op l next ih =>
    simp only [Action.rejecting, Action.run]
    rcases w.addHook op l with ⟨_ | _, v⟩ <;> exact ih _

/-- An awaited future that rejects where another one panics, if rejections of that kind are mapped to the defects. -/
structure Awaited.RejectsFor (reject : Panic → Value) (a a' : Awaited) : Prop where
  op : a'.op = a.op
  stopper : a'.stopper = a.stopper
  future : a'.future = a.future.rejecting reject
  mapped : ∀ p : Panic, a'.onReject (reject p) = .pure (.die p.defect)

/-- A panic in the factory of a host future or in a poll is treated like a rejection that is mapped to the defect. -/
structure Interpreter.RejectsPanics (m : Interpreter) : Prop where
  /-- A poll that panics leads to what a poll leads to that rejects there. -/
  poll : ∀ (a a' : Awaited) (reject : Panic → Value) (w : World) (p : Panic), a.RejectsFor reject a' →
    (a.future.poll a.op (w.attend a.op)).1 = .panicked p → m.pollAwaited a' w = m.pollAwaited a w
  /-- After a poll that leaves the one future pending the other one is pending as well. -/
  pending : ∀ (a a' : Awaited) (reject : Panic → Value) (w : World) (rest : Future), a.RejectsFor reject a' →
    w.isFired a.op = false → (a.future.poll a.op (w.attend a.op)).1 = .pending rest →
      ∃ b b', b.RejectsFor reject b' ∧ (m.pollAwaited a w).process = .awaiting m b ∧
        m.pollAwaited a' w = { m.pollAwaited a w with process := .awaiting m b' }
  /-- A factory that panics leads to what the first poll leads to of a future that rejects at once. The worlds differ in nothing
  but the note of who awaits the operation. -/
  factory : ∀ (factory : OperationId → Action Future) (onReject onReject' : Value → Action (Cause Value))
    (reject : Panic → Value) (w u v : World) (s : Subscription) (p : Panic), onReject' (reject p) = .pure (.die p.defect) →
      w.newOperation.2.react m.token (.stop w.newOperation.1) = (some s, u) →
        (factory w.newOperation.1).run u = (.error p, v) → v.isFired w.newOperation.1 = false →
          ∃ a', m.await (fun op => (factory op).rejecting reject) onReject' w = { process := .awaiting m a', world := v } ∧
            (m.pollAwaited a' v).process = (m.await factory onReject w).process ∧
              (m.pollAwaited a' v).world = ((m.await factory onReject w).world.attend w.newOperation.1).forget w.newOperation.1

/-- Panics of host futures are treated like the rejections that are put in their place. -/
theorem Interpreter.rejectsPanics (m : Interpreter) : m.RejectsPanics where
  poll a a' reject w p ha hp := by
    have hpoll := Future.poll_rejecting reject a.op a.future (w.attend a.op)
    rw [← ha.future] at hpoll
    unfold pollAwaited
    rw [ha.op, ha.stopper, hpoll]
    rcases h : a.future.poll a.op (w.attend a.op) with ⟨poll, v⟩
    rw [h] at hp
    obtain rfl : poll = .panicked p := hp
    simp only [Poll.rejecting]
    split
    · rfl
    · simp only [goOn, ha.mapped]
      rfl
  pending a a' reject w rest ha hf hp := by
    have hpoll := Future.poll_rejecting reject a.op a.future (w.attend a.op)
    rw [← ha.future] at hpoll
    unfold pollAwaited
    rw [ha.op, ha.stopper, hpoll, hf]
    rcases h : a.future.poll a.op (w.attend a.op) with ⟨poll, v⟩
    rw [h] at hp
    obtain rfl : poll = .pending rest := hp
    refine ⟨{ a with future := rest }, { a' with future := rest.rejecting reject }, ⟨ha.op, ha.stopper, rfl, ha.mapped⟩, rfl, ?_⟩
    rw [ha.op, ha.stopper]
    rfl
  factory factory onReject onReject' reject w u v s p hmapped hs hp hf := by
    have hrun := Action.run_rejecting reject (factory w.newOperation.1) u
    rw [hp] at hrun
    refine ⟨{ op := w.newOperation.1, stopper := s, future := .settle (.error (reject p)), onReject := onReject' }, ?_, ?_, ?_⟩
    · simp only [await, hs, hrun]
    · simp only [await, hs, hp, pollAwaited, hf, Future.poll, goOn, hmapped]
      rfl
    · simp only [await, hs, hp, pollAwaited, hf, Future.poll, goOn, hmapped]
      rfl

end Interruptible
