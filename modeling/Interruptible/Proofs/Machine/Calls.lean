import Interruptible.Proofs.Machine.Run

/-!
# Which callbacks are called

The callbacks that an interpreter calls in the course of its turns, with what it calls them with (`History.calls`), and the
runs in which nobody disturbs it: whenever it looks at its token, nobody has tripped it (`History.Undisturbed`). A token that
only the interrupt nodes of the tree trip is never found tripped, since after such a node the interpreter does not look again.
The trees without groups are those of which no part is a group, the trees that the callbacks build included
(`Node.Sequential`).
-/

namespace Interruptible

/-- A callback that is called, with its argument. -/
inductive Call where
  | thunk (thunk : Action (Except (Cause Value) Payload))
  | factory (factory : Action Node)
  | read (read : Environment → Action Node) (env : Environment)
  | apply (k : Payload → Action Node) (p : Payload)
  | recover (recover : Cause Value → Action Node) (c : Cause Value)
  | promise (factory : OperationId → Action Future) (op : OperationId)
  | reject (onReject : Value → Action (Cause Value)) (x : Value)

/-- What is called when a node is taken. -/
def Node.calls (env : Environment) (t : TokenId) : Node → World → List Call
  | .chain (.succeed p) k, _ => [.apply k p]
  | .chain (.succeedLazy thunk) k, w =>
    match (evaluate thunk w).1 with
    | .ok p => [.thunk thunk, .apply k p]
    | .error _ => [.thunk thunk]
  | .defer factory, _ => [.factory factory]
  | .succeedLazy thunk, _ => [.thunk thunk]
  | .asks read, _ => [.read read env]
  | .liftPromise factory _, w =>
    match (w.newOperation.2.react t (.stop w.newOperation.1)).1 with
    | some _ => [.promise factory w.newOperation.1]
    | none => []
  | _, _ => []

/-- What is called when a frame is popped. -/
def Frame.calls : Frame → Outcome → List Call
  | .apply k, .value p => [.apply k p]
  | .fold _ k, .value p => [.apply k p]
  | .fold recover _, .failure c => [.recover recover c]
  | _, _ => []

/-- What is called when an awaited future is polled. -/
def Awaited.calls (a : Awaited) (w : World) : List Call :=
  if w.isFired a.op then []
  else
    match (a.future.poll a.op (w.attend a.op)).1 with
    | .settled (.error x) => [.reject a.onReject x]
    | _ => []

/-- What is called in one turn. -/
def Process.calls : Process → World → List Call
  | .counted m n, w =>
    if w.isInterrupted m.token then [] else n.calls m.env m.token (w.record (.step n.kind m.frames.height))
  | .popping m o, _ => (m.frames.frames.head?.map (·.calls o)).getD []
  | .finalizing _ _ child, w => child.calls w
  | .awaiting _ a, w => a.calls w
  | .joining _ _ _ (.running q :: _), w => q.calls w
  | _, _ => []

/-- What is called in the course of some turns, in that order. -/
def History.calls (h : History) : List Call := h.flatMap fun x => x.1.calls x.2

/-- An interpreter that looks at its token in a turn finds that nobody has tripped it. -/
def Process.Undisturbed : Process → World → Prop
  | .counted m _, w => w.isInterrupted m.token = false
  | .awaiting m _, w => w.isInterrupted m.token = false
  | .finalizing _ _ child, w => child.Undisturbed w
  | .joining m _ _ [], w => w.isInterrupted m.token = false
  | .joining _ _ _ (.running q :: _), w => q.Undisturbed w
  | _, _ => True

/-- Nobody has disturbed the interpreter in the course of some turns. -/
def History.Undisturbed (h : History) : Prop := ∀ x ∈ h, x.1.Undisturbed x.2

/-- What an action gives in some world. -/
def Action.Gives {α : Type} (a : Action α) (x : α) : Prop := ∃ w, (a.run w).1 = .ok x

/-- No part of a tree is a group, and no part of a tree that its callbacks build. -/
inductive Node.Sequential : Node → Prop where
  | succeed (p : Payload) : Sequential (.succeed p)
  | succeedLazy (thunk : Action (Except (Cause Value) Payload)) : Sequential (.succeedLazy thunk)
  | fail (c : Cause Value) : Sequential (.fail c)
  | interrupt : Sequential .interrupt
  | asks {read : Environment → Action Node} (h : ∀ env n, (read env).Gives n → Sequential n) : Sequential (.asks read)
  | give {inner : Node} (h : Sequential inner) (env : Environment) : Sequential (.give inner env)
  | defer {factory : Action Node} (h : ∀ n, factory.Gives n → Sequential n) : Sequential (.defer factory)
  | liftPromise (factory : OperationId → Action Future) (onReject : Value → Action (Cause Value)) :
    Sequential (.liftPromise factory onReject)
  | chain {inner : Node} {k : Payload → Action Node} (h : Sequential inner) (hk : ∀ p n, (k p).Gives n → Sequential n) :
    Sequential (.chain inner k)
  | matchCause {inner : Node} {recover : Cause Value → Action Node} {k : Payload → Action Node} (h : Sequential inner)
      (hr : ∀ c n, (recover c).Gives n → Sequential n) (hk : ∀ p n, (k p).Gives n → Sequential n) :
    Sequential (.matchCause inner recover k)
  | ensuring {inner finalizer : Node} (h : Sequential inner) (hf : Sequential finalizer) :
    Sequential (.ensuring inner finalizer)

/-- A frame whose callbacks build trees without groups. -/
def Frame.Sequential : Frame → Prop
  | .apply k => ∀ p n, (k p).Gives n → n.Sequential
  | .fold recover k => (∀ c n, (recover c).Gives n → n.Sequential) ∧ ∀ p n, (k p).Gives n → n.Sequential
  | .finalize finalizer => finalizer.Sequential
  | .restore _ => True

/-! ## Actions that are gone on with -/

/-- The node that a callback comes to: a panic is a defect in its place. -/
def Node.built : Except Panic Node → Node
  | .ok n => n
  | .error p => .die p.defect

/-- Whoever guards a callback is given the node that it comes to. -/
theorem guarded_eq (a : Action Node) (w : World) : guarded a w = (Node.built (a.run w).1, (a.run w).2) := by
  unfold guarded
  split <;> rename_i h <;> rw [h] <;> rfl

/-- An interpreter goes on with the node that a callback comes to, in the world that the callback leaves. -/
theorem Interpreter.goOn_eq (m : Interpreter) (a : Action Node) (w : World) :
    m.goOn a w = { process := .next m (Node.built (a.run w).1), world := (a.run w).2 } := by
  unfold goOn
  rw [guarded_eq]

/-- All that happens to the world is what the callback does. -/
theorem Interpreter.goOn_world (m : Interpreter) (a : Action Node) (w : World) : (m.goOn a w).world = (a.run w).2 := by
  rw [goOn_eq]

/-- An action is gone on with where it ends, in the world that it leaves; a panic is not gone on with. -/
theorem Action.run_bind {α β : Type} (a : Action α) (f : α → Action β) (w : World) :
    (a.bind f).run w =
      match a.run w with
      | (.ok x, v) => (f x).run v
      | (.error p, v) => (.error p, v) := by
  induction a generalizing w with
  | pure x => rfl
  | panic p => rfl
  | ask c next ih => exact ih _ _
  | subscribe t l next ih => exact ih _ _
  | register op l next ih =>
    simp only [Action.bind, Action.run]
    split
    · exact ih _
    · exact ih _

theorem Action.run_bind_ok {α β : Type} {a : Action α} {w v : World} {x : α} (h : a.run w = (.ok x, v))
    (f : α → Action β) : (a.bind f).run w = (f x).run v := by
  rw [Action.run_bind, h]

/-- What is made of the result of an action is of no consequence for the world, and nothing is made of a panic. -/
theorem Action.run_map {α β : Type} (a : Action α) (f : α → β) (w : World) :
    (a.bind fun x => .pure (f x)).run w = ((a.run w).1.map f, (a.run w).2) := by
  rw [Action.run_bind]
  split <;> rename_i hrun <;> rw [hrun] <;> rfl

/-- What an action gives after another one. -/
theorem Action.Gives.of_bind {α β : Type} {a : Action α} {f : α → Action β} {y : β} (h : (a.bind f).Gives y) :
    ∃ x, (f x).Gives y := by
  obtain ⟨w, hw⟩ := h
  rw [Action.run_bind] at hw
  split at hw
  · exact ⟨_, _, hw⟩
  · nomatch hw

/-- What is built from the cause of a rejection is a failure. -/
theorem Action.Gives.of_fail {a : Action (Cause Value)} {n : Node} (h : (do return Node.fail (← a) : Action Node).Gives n) :
    ∃ c, n = .fail c := by
  obtain ⟨c, w, hw⟩ := Action.Gives.of_bind h
  exact ⟨c, (Except.ok.inj hw).symm⟩

theorem Action.gives_fail {a : Action (Cause Value)} {n : Node} (h : (do return Node.fail (← a) : Action Node).Gives n) :
    n.Sequential := by
  obtain ⟨c, rfl⟩ := h.of_fail
  exact .fail c

/-- What a callback builds, or the defect in its place. -/
theorem guarded_of_gives {P : Node → Prop} {a : Action Node} (ha : ∀ n, a.Gives n → P n) (hd : ∀ c, P (.fail c)) (w : World) :
    P (guarded a w).1 := by
  unfold guarded
  split
  · rename_i n w' h
    exact ha n ⟨w, by rw [h]⟩
  · exact hd _

/-- A callback that panics has built a tree without groups as well. -/
theorem guarded_sequential {a : Action Node} (ha : ∀ n, a.Gives n → n.Sequential) (w : World) :
    (guarded a w).1.Sequential :=
  guarded_of_gives ha .fail w

end Interruptible
