import Interruptible.Proofs.Machine.Frames

/-!
# Environments are lexical

An effect reads the environment of the innermost `give` around the place where it stands, or that of the run where there is
none. What a callback builds stands where the node of the callback stands, a finalizer and a branch where they were attached.

A tree can be closed over its environments without being run: every reader in it, those in the trees that its callbacks build
included, is handed the environment of the innermost `give` around it (`Node.closed`). Nothing in a closed tree looks at the
environment of the interpreter. Still it runs like the tree that it was made from, turn by turn and in the same worlds, whatever
environment the interpreter carries along (`environments_lexical`): the environment that a reader sees, or a finalizer starts
in, is always the one that was determined beforehand.
-/

namespace Interruptible

mutual
/-- A tree that stands in an environment, with every reader in it handed the environment of the innermost `give` around it. What
the interpreter would pass to a reader makes no difference any more, and instead of an environment a `give` has a blank. -/
def Node.closed (blank : Environment) : Environment → Node → Node
  | _, .succeed p => .succeed p
  | _, .succeedLazy thunk => .succeedLazy thunk
  | _, .fail c => .fail c
  | _, .interrupt => .interrupt
  | env, .asks read => .asks fun _ => Action.closed blank env (read env)
  | _, .give inner given => .give (inner.closed blank given) blank
  | env, .all children => .all (Node.allClosed blank env children)
  | env, .defer factory => .defer (Action.closed blank env factory)
  | _, .liftPromise factory onReject => .liftPromise factory onReject
  | env, .chain inner k => .chain (inner.closed blank env) fun p => Action.closed blank env (k p)
  | env, .matchCause inner recover k =>
    .matchCause (inner.closed blank env) (fun c => Action.closed blank env (recover c)) fun p => Action.closed blank env (k p)
  | env, .ensuring inner finalizer => .ensuring (inner.closed blank env) (finalizer.closed blank env)

/-- A callback whose tree stands in an environment. -/
def Action.closed (blank : Environment) : Environment → Action Node → Action Node
  | env, .pure n => .pure (n.closed blank env)
  | _, .panic p => .panic p
  | env, .ask c next => .ask c fun r => Action.closed blank env (next r)
  | env, .subscribe t l next => .subscribe t l fun r => Action.closed blank env (next r)
  | env, .register op l next => .register op l (Action.closed blank env next)

/-- The children of a group that stands in an environment. -/
def Node.allClosed (blank : Environment) : Environment → List Node → List Node
  | _, [] => []
  | env, n :: ns => n.closed blank env :: Node.allClosed blank env ns
end

/-- Pending frames, the top one of which was attached in an environment. Below a frame that restores an environment are those
that were attached in that one. -/
def Frame.closedAll (blank : Environment) : Environment → List Frame → List Frame
  | _, [] => []
  | env, .apply k :: fs => .apply (fun p => Action.closed blank env (k p)) :: closedAll blank env fs
  | env, .fold recover k :: fs =>
    .fold (fun c => Action.closed blank env (recover c)) (fun p => Action.closed blank env (k p)) :: closedAll blank env fs
  | env, .finalize n :: fs => .finalize (n.closed blank env) :: closedAll blank env fs
  | _, .restore env :: fs => .restore blank :: closedAll blank env fs

/-- Closing frames over their environments leaves as many of them. -/
theorem Frame.length_closedAll (blank env : Environment) (fs : List Frame) :
    (Frame.closedAll blank env fs).length = fs.length := by
  induction fs generalizing env with
  | nil => rfl
  | cons f fs ih => cases f <;> simp [Frame.closedAll, ih]

/-- A stack of frames, the top one of which was attached in an environment. -/
def FrameStack.closed (blank env : Environment) (s : FrameStack) : FrameStack where
  frames := Frame.closedAll blank env s.frames
  height := s.height
  height_eq := by rw [Frame.length_closedAll, s.height_eq]

/-- An interpreter that carries a blank instead of an environment. -/
def Interpreter.closed (blank : Environment) (m : Interpreter) : Interpreter :=
  { m with frames := m.frames.closed blank m.env, env := blank }

mutual
/-- A process with whatever is left of its tree closed over its environments. -/
def Process.closed (blank : Environment) : Process → Process
  | .next m n => .next (m.closed blank) (n.closed blank m.env)
  | .counted m n => .counted (m.closed blank) (n.closed blank m.env)
  | .popping m o => .popping (m.closed blank) o
  | .finalizing m o child => .finalizing (m.closed blank) o (child.closed blank)
  | .awaiting m a => .awaiting (m.closed blank) a
  | .joining m g seen rest => .joining (m.closed blank) g (Branch.closed blank seen) (Branch.closed blank rest)
  | .settled e => .settled e
/-- The branches of a group, likewise. -/
def Branch.closed (blank : Environment) : List Branch → List Branch
  | [] => []
  | .running p :: bs => .running (p.closed blank) :: Branch.closed blank bs
  | .finished e :: bs => .finished e :: Branch.closed blank bs
end

/-- The turns of a closed tree. -/
def History.closed (blank : Environment) (h : History) : History := h.map fun y => (y.1.closed blank, y.2)

/-- What a turn leaves of a closed tree. -/
def Turn.closed (blank : Environment) (r : Turn) : Turn := { r with process := r.process.closed blank }

/-- A part of a tree that sees an environment. -/
inductive Sight where
  /-- A reader is called with an environment. -/
  | reader (read : Environment → Action Node) (env : Environment)
  /-- A finalizer is started in an environment. -/
  | finalizer (n : Node) (env : Environment)

/-- The same part of a closed tree, which does not depend on what it sees. -/
def Sight.closed (blank : Environment) : Sight → Sight
  | .reader read env => .reader (fun _ => Action.closed blank env (read env)) blank
  | .finalizer n env => .finalizer (n.closed blank env) blank

/-- The environment that is seen. -/
def Sight.env : Sight → Environment
  | .reader _ env | .finalizer _ env => env

/-- Who sees an environment in a turn, in the finalizer or the branch that the process is busy with included. -/
def Process.sights : Process → World → List Sight
  | .counted m (.asks read), w => if w.isInterrupted m.token then [] else [.reader read m.env]
  | .popping m _, _ =>
    match m.frames.frames with
    | .finalize n :: _ => [.finalizer n m.env]
    | _ => []
  | .finalizing _ _ child, w => child.sights w
  | .joining _ _ _ (.running q :: _), w => q.sights w
  | _, _ => []

/-- Who sees an environment in the course of some turns, in that order. -/
def History.sights (h : History) : List Sight := h.flatMap fun y => y.1.sights y.2

section

variable (blank : Environment)

/-! ## Closed trees -/

/-- The children of a group are closed one by one. -/
theorem Node.allClosed_eq (env : Environment) (ns : List Node) :
    Node.allClosed blank env ns = ns.map (·.closed blank env) := by
  induction ns with
  | nil => simp [Node.allClosed]
  | cons n ns ih => simp [Node.allClosed, ih]

/-- Closing a tree does not change the kinds of its nodes. -/
theorem Node.kind_closed (env : Environment) (n : Node) : (n.closed blank env).kind = n.kind := by
  cases n <;> simp [Node.closed, Node.kind]

/-- A closed callback does what the callback does, and closes the tree that it has built. -/
theorem guarded_closed (env : Environment) (a : Action Node) (w : World) :
    guarded (Action.closed blank env a) w = ((guarded a w).1.closed blank env, (guarded a w).2) := by
  induction a generalizing w with
  | pure n => simp [Action.closed, guarded, Action.run]
  | panic p => simp [Action.closed, guarded, Action.run, Node.die, Node.closed]
  | ask c next ih =>
    rw [Action.closed]
    exact ih _ _
  | subscribe t l next ih =>
    rw [Action.closed]
    exact ih _ _
  | register op l next ih =>
    rw [Action.closed]
    rcases h : w.addHook op l with ⟨_ | _, w'⟩
    · simp only [guarded, Action.run, h]
      exact ih _
    · simp only [guarded, Action.run, h]
      exact ih _

/-- The failure that a rejection is turned into reads no environment. -/
theorem Action.closed_fail (env : Environment) (a : Action (Cause Value)) :
    Action.closed blank env (do return Node.fail (← a)) = do return Node.fail (← a) := by
  change Action.closed blank env (a.bind fun c => .pure (.fail c)) = a.bind fun c => .pure (.fail c)
  induction a with
  | pure c => simp only [Action.bind, Action.closed, Node.closed]
  | panic p => simp only [Action.bind, Action.closed]
  | ask c next ih => simp only [Action.bind, Action.closed, ih]
  | subscribe t l next ih => simp only [Action.bind, Action.closed, ih]
  | register op l next ih => simp only [Action.bind, Action.closed, ih]

/-! ## Closed frames -/

/-- The frame on top of a closed stack is the closed frame on top of the stack. Below a frame that restores an environment,
frames are closed over that one. -/
theorem FrameStack.pop?_closed (env : Environment) (s : FrameStack) :
    (s.closed blank env).pop? =
      s.pop?.map fun x =>
        match x with
        | (.apply k, s') => (.apply fun p => Action.closed blank env (k p), s'.closed blank env)
        | (.fold recover k, s') =>
          (.fold (fun c => Action.closed blank env (recover c)) fun p => Action.closed blank env (k p), s'.closed blank env)
        | (.finalize n, s') => (.finalize (n.closed blank env), s'.closed blank env)
        | (.restore env', s') => (.restore blank, s'.closed blank env') := by
  obtain ⟨frames, height, hs⟩ := s
  cases frames with
  | nil => simp [FrameStack.pop?, FrameStack.closed, Frame.closedAll]
  | cons f fs => cases f <;> simp [FrameStack.pop?, FrameStack.closed, Frame.closedAll]

/-! ## Closed interpreters -/

namespace Interpreter

variable (m : Interpreter)

/-- An interpreter goes on with closed code as it does with the code. -/
theorem goOn_closed (a : Action Node) (w : World) :
    (m.closed blank).goOn (Action.closed blank m.env a) w = (m.goOn a w).closed blank := by
  simp only [goOn, guarded_closed]
  rfl

/-- An interpreter awaits a future in the same way, whatever it carries instead of its environment. -/
theorem await_closed (factory : OperationId → Action Future) (onReject : Value → Action (Cause Value)) (w : World) :
    (m.closed blank).await factory onReject w = (m.await factory onReject w).closed blank := by
  have htoken : (m.closed blank).token = m.token := rfl
  simp only [await, htoken]
  split
  · rfl
  · split
    · rfl
    · simp only [Turn.closed, Process.closed, Node.die, Node.closed]

/-- A group of closed children starts as the group does. -/
theorem fanOut_closed (children : List Node) (w : World) :
    (m.closed blank).fanOut (Node.allClosed blank m.env children) w = (m.fanOut children w).closed blank := by
  have hbranches (t : TokenId) :
      Branch.closed blank (children.map fun n => .running (.start n m.env t m.interval)) =
        (Node.allClosed blank m.env children).map fun n => .running (.start n blank t m.interval) := by
    induction children with
    | nil => rfl
    | cons n ns ih =>
      simp only [List.map_cons, Branch.closed, Node.allClosed, ih]
      rfl
  simp only [fanOut, Turn.closed, Process.closed, hbranches]
  simp [Interpreter.closed, Node.allClosed_eq, Branch.closed]

/-- Taking a node of a closed tree is to take the node. -/
theorem take_closed (n : Node) (w : World) :
    (m.closed blank).take (n.closed blank m.env) w = (m.take n w).closed blank := by
  have hkind := Node.kind_closed blank m.env n
  have hheight : (m.closed blank).frames.height = m.frames.height := rfl
  unfold take
  rw [hkind, hheight]
  generalize w.record (.step n.kind m.frames.height) = w
  cases n with
  | chain inner k =>
    cases inner with
    | succeed p => exact goOn_closed blank m (k p) w
    | succeedLazy thunk =>
      simp only [Node.closed]
      split
      · exact goOn_closed blank m _ _
      · rfl
    | _ => rfl
  | succeedLazy thunk =>
    simp only [Node.closed]
    split <;> rfl
  | asks read => exact goOn_closed blank m (read m.env) w
  | defer factory => exact goOn_closed blank m factory w
  | all children => exact fanOut_closed blank m children w
  | liftPromise factory onReject => exact await_closed blank m factory onReject w
  | _ => rfl

/-- Popping a frame of a closed stack is to pop the frame. -/
theorem pop_closed (o : Outcome) (w : World) : (m.closed blank).pop o w = (m.pop o w).closed blank := by
  have hpop : (m.closed blank).frames.pop? = (m.frames.closed blank m.env).pop? := rfl
  unfold pop
  rw [hpop, FrameStack.pop?_closed]
  cases m.frames.pop? with
  | none => rfl
  | some x =>
    obtain ⟨f, s⟩ := x
    cases f with
    | finalize n => rfl
    | restore env => rfl
    | apply k =>
      cases o with
      | value p => exact goOn_closed blank { m with frames := s } (k p) w
      | _ => rfl
    | fold recover k =>
      cases o with
      | value p => exact goOn_closed blank { m with frames := s } (k p) w
      | failure c => exact goOn_closed blank { m with frames := s } (recover c) w
      | interruption => rfl

/-- An interpreter whose finalizer has settled goes on in the same way. -/
theorem finalized_closed (o : Outcome) (e : Exit Value Payload) (w : World) :
    (m.closed blank).finalized o e w = (m.finalized o e w).closed blank := by
  cases e with
  | success p => rfl
  | failure c => cases o <;> rfl

/-- An interpreter polls an awaited future in the same way. -/
theorem pollAwaited_closed (a : Awaited) (w : World) :
    (m.closed blank).pollAwaited a w = (m.pollAwaited a w).closed blank := by
  unfold pollAwaited
  split
  · rfl
  · split
    · rfl
    · rfl
    · rename_i x _ _
      have hreject := goOn_closed blank m (do return .fail (← a.onReject x))
      rw [Action.closed_fail] at hreject
      exact hreject _
    · rfl

/-- An interpreter joins a group in the same way. -/
theorem joined_closed (g : Group) (exits : List (Exit Value Payload)) (w : World) :
    (m.closed blank).joined g exits w = (m.joined g exits w).closed blank := by
  have htoken : (m.closed blank).token = m.token := rfl
  rw [joined_eq, joined_eq, htoken]
  split
  · rfl
  · split <;> rfl

end Interpreter

/-! ## One turn -/

/-- Two lists of branches are closed one after the other. -/
theorem Branch.closed_append (bs cs : List Branch) :
    Branch.closed blank (bs ++ cs) = Branch.closed blank bs ++ Branch.closed blank cs := by
  induction bs with
  | nil => rfl
  | cons b bs ih => cases b <;> simp [Branch.closed, ih]

/-- Branches are closed in every order. -/
theorem Branch.closed_reverse (bs : List Branch) : Branch.closed blank bs.reverse = (Branch.closed blank bs).reverse := by
  induction bs with
  | nil => rfl
  | cons b bs ih => cases b <;> simp [Branch.closed, Branch.closed_append, ih]

/-- Closed branches have the exits of the branches. -/
theorem Branch.exits_closed (bs : List Branch) :
    (Branch.closed blank bs).filterMap Branch.exit? = bs.filterMap Branch.exit? := by
  induction bs with
  | nil => rfl
  | cons b bs ih => cases b <;> simp [Branch.closed, Branch.exit?, List.filterMap_cons, ih]

/-- There are as many closed branches as branches. -/
theorem Branch.length_closed (bs : List Branch) : (Branch.closed blank bs).length = bs.length := by
  induction bs with
  | nil => rfl
  | cons b bs ih => cases b <;> simp [Branch.closed, ih]

/-- A round of closed branches ends as the round of the branches does. -/
theorem Interpreter.endRound_closed (m : Interpreter) (g : Group) (bs : List Branch) (w : World) :
    (m.closed blank).endRound g (Branch.closed blank bs) w = (m.endRound g bs w).closed blank := by
  rw [endRound_eq, endRound_eq, Group.afterRound, Branch.exits_closed, Branch.length_closed]
  split
  · exact joined_closed blank m g _ _
  · rfl

/-- A closed process has settled as the process has. -/
theorem Process.exit?_closed (p : Process) : (p.closed blank).exit? = p.exit? := by
  cases p <;> rfl

/-- A closed node is counted as the node is, and the interpreter yields before both or before neither. -/
theorem Process.turn_next_closed (m : Interpreter) (n : Node) (w : World) :
    Process.turn ((Process.next m n).closed blank) w = (Process.turn (.next m n) w).closed blank := by
  by_cases h : (m.instructions + 1) % m.interval = 0
  · have h' : ((m.closed blank).instructions + 1) % (m.closed blank).interval = 0 := h
    simp only [Process.closed, Process.turn]
    rw [if_pos h, if_pos h']
    rfl
  · have h' : ¬ ((m.closed blank).instructions + 1) % (m.closed blank).interval = 0 := h
    simp only [Process.closed, Process.turn]
    rw [if_neg h, if_neg h']
    rfl

/-- A closed group takes a turn as the group does, if its busy branch does. -/
theorem Process.turn_joining_closed (m : Interpreter) (g : Group) (seen rest : List Branch) {p : Process} {w : World}
    (hp : (p.closed blank).turn w = (p.turn w).closed blank) :
    Process.turn ((Process.joining m g seen (.running p :: rest)).closed blank) w =
      (Process.turn (.joining m g seen (.running p :: rest)) w).closed blank := by
  simp only [Process.closed, Branch.closed, Process.turn, hp]
  obtain ⟨q, v, pace⟩ := p.turn w
  cases q <;> cases pace <;> rfl

/-- A turn of a closed tree is a turn of the tree: it leads to the same world, and to what is left of the tree, closed. -/
theorem Process.turn_closed (p : Process) (w : World) : (p.closed blank).turn w = (p.turn w).closed blank := by
  induction p, w using Process.turn.induct with
  | case1 m n w m' h => exact turn_next_closed blank m n w
  | case2 m n w m' h => exact turn_next_closed blank m n w
  | case3 m n w h =>
    have h' : w.isInterrupted (m.closed blank).token = true := h
    simp only [Process.closed, Process.turn]
    rw [if_pos h, if_pos h']
    rfl
  | case4 m n w h =>
    have h' : ¬ w.isInterrupted (m.closed blank).token = true := h
    simp only [Process.closed, Process.turn]
    rw [if_neg h, if_neg h']
    exact m.take_closed blank n w
  | case5 m o w => exact m.pop_closed blank o w
  | case6 m o e w => exact m.finalized_closed blank o e w
  | case7 m o child w hc ih =>
    have hx : child.exit? = none := Process.exit?_eq_none hc
    rw [Process.closed, Process.turn_finalizing _ _ hx, Process.turn_finalizing _ _ (by rw [Process.exit?_closed, hx]), ih]
    rfl
  | case8 m a w => exact m.pollAwaited_closed blank a w
  | case9 m g seen w =>
    simp only [Process.closed, Branch.closed, Process.turn]
    rw [← Branch.closed_reverse]
    exact m.endRound_closed blank g _ w
  | case10 m g seen e rest w => rfl
  | case11 m g seen p rest w t e he ih => exact turn_joining_closed blank m g seen rest ih
  | case12 m g seen p rest w t hpace hns ih => exact turn_joining_closed blank m g seen rest ih
  | case13 m g seen p rest w t hpace hns ih => exact turn_joining_closed blank m g seen rest ih
  | case14 e w => rfl

/-! ## Runs -/

/-- A run of a tree, with the tree closed. -/
theorem Process.Run.closed {R : World → World → Prop} {p q : Process} {w v : World} {h : History} (run : Run R p w h q v) :
    Run R (p.closed blank) w (h.closed blank) (q.closed blank) v := by
  induction run with
  | done p w => exact .done _ _
  | @turn p q w v h hp _ ih =>
    refine .turn (by rw [exit?_closed, hp]) ?_
    rw [turn_closed]
    exact ih
  | moved hm _ ih => exact .moved hm ih

/-- Where a reader is called or a finalizer is started, that of the closed tree has been closed over what is seen there. -/
theorem Process.sights_closed (p : Process) (w : World) : (p.closed blank).sights w = (p.sights w).map (·.closed blank) := by
  induction p, w using Process.sights.induct with
  | case1 m read w h | case2 m read w h =>
    have htoken : (m.closed blank).token = m.token := rfl
    simp only [Process.closed, Node.closed, sights, htoken, h]
    rfl
  | case3 m o w n fs hf =>
    have hf' : (m.closed blank).frames.frames = .finalize (n.closed blank m.env) :: Frame.closedAll blank m.env fs := by
      change Frame.closedAll blank m.env m.frames.frames = _
      rw [hf, Frame.closedAll]
    simp only [Process.closed, sights, hf, hf']
    rfl
  | case4 m o w hf =>
    have hframes : (m.closed blank).frames.frames = Frame.closedAll blank m.env m.frames.frames := rfl
    simp only [Process.closed, sights, hframes]
    rcases hfs : m.frames.frames with _ | ⟨f, fs⟩
    · rfl
    · cases f with
      | finalize n => exact (hf n fs hfs).elim
      | _ => rfl
  | case5 m o child w ih => exact ih
  | case6 m g seen q rest w ih => exact ih
  | case7 p w h₁ h₂ h₃ h₄ =>
    cases p with
    | counted m n =>
      cases n with
      | asks read => exact absurd rfl (h₁ m read)
      | _ => rfl
    | popping m o => exact absurd rfl (h₂ m o)
    | finalizing m o child => exact absurd rfl (h₃ m o child)
    | joining m g seen rest =>
      rcases rest with _ | ⟨q | e, rest⟩
      · rfl
      · exact absurd rfl (h₄ m g seen q rest)
      · rfl
    | _ => rfl

/-- What is seen in the turns of a closed tree is the closed sights of the tree: each reader is handed a blank where it was
handed an environment. -/
theorem History.sights_closed (h : History) : (h.closed blank).sights = h.sights.map (·.closed blank) := by
  simp only [History.sights, History.closed, List.flatMap_map, List.map_flatMap, Process.sights_closed]

end

/-- In the course of a run every reader is called with the environment of the innermost `give` around the place where it stands,
and every finalizer is started in that of the place where it was attached: the tree in which all of them have been handed these
environments beforehand runs in the same way, turn by turn and in the same worlds, and whoever sees an environment in the run of
the tree has been closed over just that one. This holds whatever the others do to the world, and however the run ends. -/
theorem environments_lexical {R : World → World → Prop} {n : Node} {env : Environment} {t : TokenId} {k : Nat} {w v : World}
    {h : History} {q : Process} (run : Process.Run R (.start n env t k) w h q v) (blank : Environment) :
    Process.Run R (.start (n.closed blank env) blank t k) w (h.closed blank) (q.closed blank) v ∧
      (q.closed blank).exit? = q.exit? ∧ (h.closed blank).sights = h.sights.map (·.closed blank) :=
  ⟨run.closed blank, q.exit?_closed blank, h.sights_closed blank⟩

/-- The effect that succeeds with the environment. -/
def readEnvironment : Node := .asks fun env => return .succeed (.environment env)

/-- The effect that fails with the environment. -/
def refuseEnvironment : Node := .asks fun env => return .fail (.fail env.toValue)

/-- A branch that fails in another environment, with a finalizer there, and a handler and a finalizer outside of it. -/
def scopedReaders : Node :=
  .ensuring
    (.matchCause (.give (.ensuring (.all [refuseEnvironment]) readEnvironment) (.plain (.str "inside")))
      (fun _ => return readEnvironment) fun p => return .succeed p)
    readEnvironment

/-- Readers in a tree with nested scopes see the environment that is theirs: outside of all scopes again after the inner ones
have been left by a failure. -/
theorem environments_lexical_scopedReaders :
    ∃ (h : History) (v : World),
      Process.Run Eq (.start scopedReaders (.plain (.str "outside")) 0 99) (World.newToken default).2 h
          (.settled (.success (.environment (.plain (.str "outside"))))) v ∧
        h.sights.map Sight.env =
          (List.replicate 3 "inside" ++ List.replicate 3 "outside").map (fun name => .plain (.str name)) ∧
        Process.Run Eq (.start (scopedReaders.closed (.plain .null) (.plain (.str "outside"))) (.plain .null) 0 99)
          (World.newToken default).2 (h.closed (.plain .null))
          (.settled (.success (.environment (.plain (.str "outside"))))) v := by
  have run : Process.Run Eq (.start scopedReaders (.plain (.str "outside")) 0 99) (World.newToken default).2
      (Process.alone 80 (.start scopedReaders (.plain (.str "outside")) 0 99) (World.newToken default).2).1
      (.settled (.success (.environment (.plain (.str "outside")))))
      (Process.alone 80 (.start scopedReaders (.plain (.str "outside")) 0 99) (World.newToken default).2).2.2 :=
    Process.alone_run 80 _ _
  exact ⟨_, _, run, rfl, (environments_lexical run (.plain .null)).1⟩

end Interruptible
