import Interruptible.Proofs.Machine.Run

/-!
# What happens to the frames

The view of an interpreter through which its frames are looked at: the frames that are pending (`Process.frames`), the
finalizer that is at work (`Process.finalizer?`), and what a turn does to them (`Process.frameEvents`). A turn pushes one
frame, or pops the top one, or lets a finalizer work or end, or leaves the frames alone; a popped finalizer starts to run at
once, and no frame is pushed or popped before it has settled (`Process.turn_shift`).
-/

namespace Interruptible

/-- The pending frames of an interpreter, the top one first. -/
def Process.frames : Process → List Frame
  | .next m _ | .counted m _ | .popping m _ | .finalizing m _ _ | .awaiting m _ | .joining m _ _ _ => m.frames.frames
  | .settled _ => []

/-- The finalizer that an interpreter waits for. -/
def Process.finalizer? : Process → Option Process
  | .finalizing _ _ child => some child
  | _ => none

/-- Something that happens to the frames of an interpreter. -/
inductive FrameEvent where
  /-- A node has been taken whose inner node is to be evaluated first. -/
  | pushed (f : Frame)
  /-- The top frame has been popped; if it is a finalizer, that finalizer has been started. -/
  | popped (f : Frame)
  /-- The finalizer that was started last has settled. -/
  | finalized (e : Exit Value Payload)

/-- The frame that is pushed when a node is taken in an environment. -/
def Node.frame? (env : Environment) : Node → Option Frame
  | .chain (.succeed _) _ => none
  | .chain (.succeedLazy _) _ => none
  | .chain _ k => some (.apply k)
  | .matchCause _ recover k => some (.fold recover k)
  | .give _ _ => some (.restore env)
  | .ensuring _ finalizer => some (.finalize finalizer)
  | _ => none

/-- What a turn of a process does to the frames of its own interpreter. -/
def Process.frameEvents : Process → World → List FrameEvent
  | .counted m n, w => if w.isInterrupted m.token then [] else ((n.frame? m.env).map .pushed).toList
  | .popping m _, _ => (m.frames.frames.head?.map .popped).toList
  | .finalizing _ _ (.settled e), _ => [.finalized e]
  | _, _ => []

/-- What has happened to the frames of an interpreter in the course of its turns. -/
def History.frameEvents (h : History) : List FrameEvent := h.flatMap fun x => x.1.frameEvents x.2

/-! ## Stacks of frames -/

@[simp] theorem FrameStack.frames_push (s : FrameStack) (f : Frame) : (s.push f).frames = f :: s.frames := rfl

theorem FrameStack.pop?_eq_none {s : FrameStack} (h : s.frames = []) : s.pop? = none := by
  unfold FrameStack.pop?
  split
  · rfl
  · rename_i h'
    rw [h] at h'
    nomatch h'

theorem FrameStack.pop?_eq_some {s : FrameStack} {f : Frame} {fs : List Frame} (h : s.frames = f :: fs) :
    ∃ s', s.pop? = some (f, s') ∧ s'.frames = fs := by
  unfold FrameStack.pop?
  split
  · rename_i h'
    rw [h] at h'
    nomatch h'
  · rename_i g rest h'
    rw [h] at h'
    obtain ⟨rfl, rfl⟩ := List.cons.inj h'
    exact ⟨_, rfl, rfl⟩

/-- A stack is known by its frames. -/
theorem FrameStack.eq_of_frames {s s' : FrameStack} (h : s.frames = s'.frames) : s = s' := by
  obtain ⟨frames, height, heq⟩ := s
  obtain ⟨frames', height', heq'⟩ := s'
  obtain rfl : frames = frames' := h
  simp only [FrameStack.mk.injEq, true_and]
  rw [heq, heq']

/-- What was put on top comes off again. -/
theorem FrameStack.pop?_push (s : FrameStack) (f : Frame) : (s.push f).pop? = some (f, s) := by
  obtain ⟨s', hpop, hframes⟩ := FrameStack.pop?_eq_some (s.frames_push f)
  rw [hpop, FrameStack.eq_of_frames hframes]

/-- An interpreter with pending frames is one onto which the top one has been pushed. -/
theorem Interpreter.exists_push {m : Interpreter} {f : Frame} {fs : List Frame} (h : m.frames.frames = f :: fs) :
    ∃ m₀ : Interpreter, m = m₀.push f ∧ m₀.frames.frames = fs := by
  obtain ⟨s', -, hs'⟩ := FrameStack.pop?_eq_some h
  refine ⟨{ m with frames := s' }, ?_, hs'⟩
  have hframes : m.frames = s'.push f := FrameStack.eq_of_frames (by rw [h, FrameStack.frames_push, hs'])
  rw [Interpreter.push, ← hframes]

/-! ## One turn -/

/-- What a turn does to the frames and the finalizer at work. -/
inductive FrameShift : Process → World → List FrameEvent → Process → Prop where
  /-- The frames are left alone. -/
  | idle {p p' : Process} {w : World} (hp : p.finalizer? = none) (hp' : p'.finalizer? = none)
      (hf : p'.frames = p.frames) : FrameShift p w [] p'
  | push {p p' : Process} {w : World} (f : Frame) (hp : p.finalizer? = none) (hp' : p'.finalizer? = none)
      (hf : p'.frames = f :: p.frames) : FrameShift p w [.pushed f] p'
  | pop {p p' : Process} {w : World} (f : Frame) (hn : ∀ n, f ≠ .finalize n) (hp : p.finalizer? = none)
      (hp' : p'.finalizer? = none) (hf : p.frames = f :: p'.frames) : FrameShift p w [.popped f] p'
  /-- A finalizer starts. -/
  | start {p p' : Process} {w : World} (n : Node) (env : Environment) (t : TokenId) (k : Nat)
      (hp : p.finalizer? = none) (hp' : p'.finalizer? = some (.start n env t k)) (hf : p.frames = .finalize n :: p'.frames) :
      FrameShift p w [.popped (.finalize n)] p'
  /-- A finalizer takes a turn. -/
  | work {p p' : Process} {w : World} (child : Process) (hc : child.exit? = none) (hp : p.finalizer? = some child)
      (hp' : p'.finalizer? = some (child.turn w).process) (hf : p'.frames = p.frames) : FrameShift p w [] p'
  /-- A finalizer has settled. -/
  | finish {p p' : Process} {w : World} (e : Exit Value Payload) (hp : p.finalizer? = some (.settled e))
      (hp' : p'.finalizer? = none) (hf : p'.frames = p.frames) : FrameShift p w [.finalized e] p'

namespace Interpreter

/-- What an interpreter becomes that takes a node. It pushes the frame of the node, if there is one, and keeps its token and the
failures of its finalizers. -/
inductive Taken (m : Interpreter) : Node → Process → Prop where
  /-- Another node comes next. -/
  | next {n : Node} {m' : Interpreter} (n' : Node) (ht : m'.token = m.token) (hs : m'.suppressed = m.suppressed)
      (hf : m'.frames.frames = (n.frame? m.env).toList ++ m.frames.frames) : Taken m n (.next m' n')
  /-- The node has come to a value or a failure. -/
  | popping {n : Node} {o : Outcome} (hn : n.frame? m.env = none) (ho : o ≠ .interruption) : Taken m n (.popping m o)
  | interrupt : Taken m .interrupt (.popping m .interruption)
  /-- A host future is not awaited, since nothing would stop it. -/
  | refused (factory : OperationId → Action Future) (onReject : Value → Action (Cause Value)) :
    Taken m (.liftPromise factory onReject) (.popping m .interruption)
  | awaiting (factory : OperationId → Action Future) (onReject : Value → Action (Cause Value)) (a : Awaited) :
    Taken m (.liftPromise factory onReject) (.awaiting m a)
  | joining (children : List Node) (g : Group) :
    Taken m (.all children) (.joining m g [] (children.map fun n => .running (.start n m.env g.token m.interval)))

/-- An interpreter that takes a node pushes the frame of that node, if there is one. -/
theorem take_taken (m : Interpreter) (n : Node) (w : World) : m.Taken n (m.take n w).process := by
  unfold take
  dsimp only
  split
  · exact .next _ rfl rfl rfl
  · split <;> exact .next _ rfl rfl rfl
  · rename_i inner k hs hl
    cases inner with
    | succeed p => exact absurd rfl (hs p)
    | succeedLazy thunk => exact absurd rfl (hl thunk)
    | _ => exact .next _ rfl rfl rfl
  · exact .next _ rfl rfl rfl
  · exact .next _ rfl rfl rfl
  · exact .popping rfl nofun
  · split <;> exact .next _ rfl rfl rfl
  · exact .popping rfl nofun
  · exact .interrupt
  · exact .next _ rfl rfl rfl
  · exact .next _ rfl rfl rfl
  · exact .joining _ _
  · unfold await
    dsimp only
    split
    · exact .refused _ _
    · split
      · exact .awaiting _ _ _
      · exact .next _ rfl rfl rfl
  · exact .next _ rfl rfl rfl

/-- Taking a node pushes its frame, if it has one. -/
theorem take_frames (m : Interpreter) (n : Node) (w : World) :
    (m.take n w).process.finalizer? = none ∧
      (m.take n w).process.frames = (n.frame? m.env).toList ++ m.frames.frames := by
  have h := m.take_taken n w
  generalize (m.take n w).process = p at h ⊢
  cases h with
  | next n' ht hs hf => exact ⟨rfl, hf⟩
  | popping hn ho =>
    rw [hn]
    exact ⟨rfl, rfl⟩
  | interrupt | refused | awaiting | joining => exact ⟨rfl, rfl⟩

/-- An interpreter without frames settles when it pops. -/
theorem pop_nil {m : Interpreter} (h : m.frames.frames = []) (o : Outcome) (w : World) :
    m.pop o w = { process := .settled (m.exit o), world := w } := by
  unfold pop
  rw [FrameStack.pop?_eq_none h]

/-- Popping a frame that is no finalizer. -/
theorem pop_frames {m : Interpreter} {f : Frame} {fs : List Frame} (h : m.frames.frames = f :: fs)
    (hf : ∀ n, f ≠ .finalize n) (o : Outcome) (w : World) :
    (m.pop o w).process.finalizer? = none ∧ (m.pop o w).process.frames = fs := by
  obtain ⟨s', hs, rfl⟩ := FrameStack.pop?_eq_some h
  unfold pop
  rw [hs]
  cases f with
  | finalize n => exact absurd rfl (hf n)
  | apply k => cases o <;> exact ⟨rfl, rfl⟩
  | fold recover k => cases o <;> exact ⟨rfl, rfl⟩
  | restore env => cases o <;> exact ⟨rfl, rfl⟩

/-- Popping a finalizer starts it in the environment and under a token of its own. -/
theorem pop_finalize {m : Interpreter} {n : Node} {fs : List Frame} (h : m.frames.frames = .finalize n :: fs)
    (o : Outcome) (w : World) :
    ∃ s', s'.frames = fs ∧
      m.pop o w =
        { process := .finalizing { m with frames := s' } o (.start n m.env w.newToken.1 m.interval)
          world := w.newToken.2 } := by
  obtain ⟨s', hs, hfs⟩ := FrameStack.pop?_eq_some h
  refine ⟨s', hfs, ?_⟩
  unfold pop
  rw [hs]

/-- When its finalizer has settled, an interpreter has the frames below that one. -/
theorem finalized_frames (m : Interpreter) (o : Outcome) (e : Exit Value Payload) (w : World) :
    (m.finalized o e w).process.finalizer? = none ∧ (m.finalized o e w).process.frames = m.frames.frames := by
  cases e with
  | success p => exact ⟨rfl, rfl⟩
  | failure c => cases o <;> exact ⟨rfl, rfl⟩

/-- What an interpreter becomes that has waited for a host future or for a group: it goes on with a node, or unwinds, or waits
again. Nothing else of it changes. -/
inductive Waited (m : Interpreter) : Process → Prop where
  | next (n : Node) : Waited m (.next m n)
  | interrupted : Waited m (.popping m .interruption)
  | awaiting (a : Awaited) : Waited m (.awaiting m a)
  | joining (g : Group) (branches : List Branch) : Waited m (.joining m g [] branches)

/-- An interpreter that polls a future keeps its frames. -/
theorem pollAwaited_waited (m : Interpreter) (a : Awaited) (w : World) : m.Waited (m.pollAwaited a w).process := by
  unfold pollAwaited
  split
  · exact .interrupted
  · split
    · exact .awaiting _
    all_goals exact .next _

/-- An interpreter that joins a group keeps its frames. -/
theorem joined_waited (m : Interpreter) (g : Group) (exits : List (Exit Value Payload)) (w : World) :
    m.Waited (m.joined g exits w).process := by
  rw [joined_eq]
  split
  · exact .interrupted
  · split
    · exact .next _
    · exact .next _
    · exact .interrupted

/-- An interpreter that ends a round keeps its frames. -/
theorem endRound_waited (m : Interpreter) (g : Group) (branches : List Branch) (w : World) :
    m.Waited (m.endRound g branches w).process := by
  rw [endRound_eq]
  split
  · exact m.joined_waited g _ _
  · exact .joining _ _

/-- An interpreter that has waited for a future or a group has the frames that it had. -/
theorem Waited.frames {m : Interpreter} {p : Process} (h : m.Waited p) :
    p.finalizer? = none ∧ p.frames = m.frames.frames := by
  cases h <;> exact ⟨rfl, rfl⟩

end Interpreter

/-- The one thing that a turn does to the frames. -/
theorem Process.turn_shift (p : Process) (w : World) (hp : p.exit? = none) :
    FrameShift p w (p.frameEvents w) (p.turn w).process := by
  cases p with
  | next m n =>
    refine .idle rfl ?_ ?_ <;> simp only [Process.turn] <;> split <;> rfl
  | counted m n =>
    simp only [Process.turn, Process.frameEvents]
    split
    · exact .idle rfl rfl rfl
    · obtain ⟨hfin, hframes⟩ := m.take_frames n w
      cases hn : n.frame? m.env with
      | none =>
        rw [hn] at hframes
        exact .idle rfl hfin hframes
      | some f =>
        rw [hn] at hframes
        exact .push f rfl hfin hframes
  | popping m o =>
    simp only [Process.turn, Process.frameEvents]
    cases hf : m.frames.frames with
    | nil =>
      rw [Interpreter.pop_nil hf]
      exact .idle rfl rfl hf.symm
    | cons f fs =>
      by_cases hn : ∀ n, f ≠ .finalize n
      · obtain ⟨hfin, hframes⟩ := Interpreter.pop_frames hf hn o w
        exact .pop f hn rfl hfin (by rw [hframes]; exact hf)
      · obtain ⟨n, hn⟩ := Classical.not_forall.mp hn
        obtain rfl := Classical.not_not.mp hn
        obtain ⟨s', rfl, heq⟩ := Interpreter.pop_finalize hf o w
        rw [heq]
        exact .start n _ _ _ rfl rfl hf
  | finalizing m o child =>
    cases child with
    | settled e =>
      obtain ⟨hfin, hframes⟩ := m.finalized_frames o e w
      exact .finish e rfl hfin hframes
    | _ => exact .work _ rfl rfl rfl rfl
  | awaiting m a =>
    obtain ⟨hfin, hframes⟩ := (m.pollAwaited_waited a w).frames
    exact .idle rfl hfin hframes
  | joining m g seen rest =>
    rcases rest with _ | ⟨q | e, rest⟩
    · obtain ⟨hfin, hframes⟩ := (m.endRound_waited g seen.reverse w).frames
      exact .idle rfl hfin hframes
    · refine .idle rfl ?_ ?_ <;> simp only [Process.turn] <;> split <;> rfl
    · exact .idle rfl rfl rfl
  | settled e => exact absurd hp (Option.some_ne_none e)

/-- Only an interpreter that is popping frames pops one. -/
theorem Process.popping_of_popped {p : Process} {w : World} {f : Frame} (h : .popped f ∈ p.frameEvents w) :
    ∃ m o, p = .popping m o := by
  cases p with
  | popping m o => exact ⟨m, o, rfl⟩
  | counted m n =>
    simp only [frameEvents] at h
    split at h
    · exact absurd h List.not_mem_nil
    · cases hn : n.frame? m.env <;> rw [hn] at h <;> simp at h
  | finalizing m o child => cases child <;> simp [frameEvents] at h
  | _ => exact absurd h List.not_mem_nil

/-! ## Interpreters that have been interrupted -/

/-- An interpreter that has observed interruption and unwinds, or has settled. -/
def Process.Interrupted : Process → Prop
  | .popping _ .interruption | .finalizing _ .interruption _ | .settled _ => True
  | _ => False

/-- An interpreter that has observed interruption takes no node any more. -/
theorem Process.turn_interrupted {p : Process} (h : p.Interrupted) (w : World) : (p.turn w).process.Interrupted := by
  match p, h with
  | .popping m .interruption, _ =>
    cases hf : m.frames.frames with
    | nil =>
      simp only [Process.turn, Interpreter.pop_nil hf]
      trivial
    | cons f fs =>
      obtain ⟨s', hpop, -⟩ := FrameStack.pop?_eq_some hf
      simp only [Process.turn, Interpreter.pop, hpop]
      cases f <;> trivial
  | .finalizing m .interruption child, _ =>
    cases hx : child.exit? with
    | none =>
      rw [turn_finalizing m _ hx]
      trivial
    | some e =>
      obtain rfl := exit?_eq_some hx
      cases e <;> trivial
  | .settled e, _ => trivial

/-- An interpreter that takes a node counts it and looks at its token first. If the token has been tripped it unwinds from then
on. What others leave alone holds until then, if the runtime's notes are of no consequence for it. -/
theorem Process.Run.dispatch {R : World → World → Prop} {I : World → Prop} (hI : ∀ a b, R a b → I a → I b)
    (hA : ∀ a b, World.Alike a b → I a → I b) {m : Interpreter} {n : Node} {q : Process} {w v : World} {h : History}
    (run : Process.Run R (.next m n) w h q v) (hq : q.exit? ≠ none) (hw : I w) :
    ∃ w₁ w₂ h', h = (.next m n, w₁) :: (.counted m.tick n, w₂) :: h' ∧
      (w₂.isInterrupted m.token = true ∧ (∀ y ∈ h', y.1.Interrupted) ∨
        w₂.isInterrupted m.token = false ∧ I w₂ ∧ Run R (m.tick.take n w₂).process (m.tick.take n w₂).world h' q v) := by
  obtain ⟨w₁, h₁, rfl, hw₁, run⟩ := run.uncons hI rfl hq hw
  obtain ⟨hturn, halike⟩ := turn_next m n w₁
  rw [hturn] at run
  obtain ⟨w₂, h₂, rfl, hw₂, run⟩ := run.uncons hI rfl hq (hA _ _ halike hw₁)
  refine ⟨w₁, w₂, h₂, rfl, ?_⟩
  cases ho : w₂.isInterrupted m.token with
  | true =>
    have hi : (Process.turn (.counted m.tick n) w₂).process.Interrupted := by
      have ho' : w₂.isInterrupted m.tick.token = true := ho
      simp only [Process.turn, ho']
      trivial
    exact Or.inl ⟨rfl, run.throughout (fun q v _ hq => turn_interrupted hq v) hi⟩
  | false =>
    rw [turn_counted (m := m.tick) ho] at run
    exact Or.inr ⟨rfl, hw₂, run⟩

end Interruptible
