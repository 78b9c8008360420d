import Interruptible.Proofs.Effect.Plan
import Interruptible.Proofs.Machine.FirstRound

/-!
# Interpreters that carry out plans

An interpreter that has started on a tree which carries out a plan comes to what the plan comes to: at any moment, what it is
about, its pending frames, and the processes that it waits for determine the exit that is left to it (`Process.Follows`), and a
turn does not change that exit, as long as nobody disturbs the interpreter and no branch of a group fails
(`Process.Follows.turn`). The cells that belong to the process are accounted for by a heap; whatever others do to other cells
makes no difference.
-/

namespace Interruptible

open Plan

/-- What is left to do with a result. -/
abbrev Handler := Result → Option (Exit Value Payload)

/-- What a continuation that carries out plans is left to do. -/
def Handler.apply (env : Environment) (apply : Payload → Plan) (κ : Handler) : Handler
  | .value p => ((apply p).result env).bind κ
  | r => κ r

/-- What a handler of failures and successes is left to do. -/
def Handler.fold (env : Environment) (recover : Cause Value → Plan) (apply : Payload → Plan) (κ : Handler) : Handler
  | .value p => ((apply p).result env).bind κ
  | .failure c => ((recover c).result env).bind κ
  | r => κ r

/-- What a finalizer that comes to this is left to do. -/
def Handler.finalize (finalizer : Option Result) (κ : Handler) : Handler :=
  fun r => finalizer.bind fun f => κ (r.finalized f.exit)

/-- What a bracket is left to do whose use has ended. -/
def Handler.afterUse (env : Environment) (panics : Exit Value Payload → Option Panic)
    (release : Exit Value Payload → Plan) (κ : Handler) : Handler :=
  fun r => (Result.afterUse panics (fun used => (release used).result env) r).bind κ

/-- What a bracket is left to do whose use has ended and whose end has been captured. -/
def Handler.release (env : Environment) (panics : Exit Value Payload → Option Panic) (release : Exit Value Payload → Plan)
    (κ : Handler) : Handler
  | .value p => ((releasing (panics p.told) (release p.told) p.told).result env).bind κ
  | r => κ.finalize ((guarding (panics .interrupted) (release .interrupted)).result env) r

/-! What is left to do with a plan that has parts is left to its first part, below the frame that is pushed for it. -/

theorem Plan.result_chain (inner : Plan) (apply : Payload → Plan) (env : Environment) (κ : Handler) :
    ((Plan.chain inner apply).result env).bind κ = (inner.result env).bind (κ.apply env apply) := by
  simp only [Plan.result]
  cases inner.result env with
  | none => rfl
  | some r => cases r <;> rfl

theorem Plan.result_matchCause (inner : Plan) (recover : Cause Value → Plan) (apply : Payload → Plan) (env : Environment)
    (κ : Handler) :
    ((Plan.matchCause inner recover apply).result env).bind κ = (inner.result env).bind (κ.fold env recover apply) := by
  simp only [Plan.result]
  cases inner.result env with
  | none => rfl
  | some r => cases r <;> rfl

theorem Plan.result_ensuring (inner finalizer : Plan) (env : Environment) (κ : Handler) :
    ((Plan.ensuring inner finalizer).result env).bind κ = (inner.result env).bind (κ.finalize (finalizer.result env)) := by
  simp only [Plan.result]
  cases inner.result env with
  | none => rfl
  | some r =>
    simp only [Option.bind_some, Handler.finalize]
    cases finalizer.result env <;> rfl

theorem Plan.result_bracket (acquire : Plan) (use : Payload → Plan) (panics : Payload → Exit Value Payload → Option Panic)
    (release : Payload → Exit Value Payload → Plan) (env : Environment) (κ : Handler) :
    ((Plan.bracket acquire use panics release).result env).bind κ =
      (acquire.result env).bind fun
        | .value p => ((use p).result env).bind (κ.afterUse env (panics p) (release p))
        | r => κ r := by
  simp only [Plan.result]
  cases acquire.result env with
  | none => rfl
  | some r =>
    cases r with
    | value p =>
      simp only [Option.bind_some]
      cases (use p).result env <;> rfl
    | failure c | interrupted suppressed => rfl

/-- A node that carries out a plan, or the guard of a bracket, and what it comes to. The guard of a bracket whose resource lies
in its cell releases it; otherwise there is nothing to do. -/
inductive Node.ComesTo (env : Environment) : Heap → Node → Option Result → Prop where
  | plan {plan : Plan} {H : Heap} {n : Node} (h : plan.Realized H n) : ComesTo env H n (plan.result env)
  | idle (b : Lease) : ComesTo env [(b.cell, none)] b.guard (some (.value .unit))
  | guard {b : Lease} {panics : Payload → Exit Value Payload → Option Panic} {release : Payload → Exit Value Payload → Plan}
      {H : Heap} (h : b.ReleasesAs panics release H) :
    ComesTo env (H ++ [(b.cell, some b.resource)]) b.guard
      ((guarding (panics b.resource .interrupted) (release b.resource .interrupted)).result env)

/-- Pending frames that carry out plans, and what they are left to do. -/
inductive Frame.Stack : Environment → List Frame → Heap → Handler → Prop where
  | nil {env : Environment} {H : Heap} : Stack env [] H fun r => some r.exit
  | apply {env : Environment} {fs : List Frame} {H₁ H₂ : Heap} {κ : Handler} {apply : Payload → Plan}
      {k : Payload → Action Node} (h : ∀ p, (k p).Comes (fun H o => (apply p).Realized H (Node.built o)) H₁)
      (hs : Stack env fs H₂ κ) : Stack env (.apply k :: fs) (H₁ ++ H₂) (κ.apply env apply)
  | fold {env : Environment} {fs : List Frame} {H₁ H₂ : Heap} {κ : Handler} {recover : Cause Value → Plan}
      {apply : Payload → Plan} {kr : Cause Value → Action Node} {k : Payload → Action Node}
      (hr : ∀ c, (kr c).Comes (fun H o => (recover c).Realized H (Node.built o)) H₁)
      (h : ∀ p, (k p).Comes (fun H o => (apply p).Realized H (Node.built o)) H₁) (hs : Stack env fs H₂ κ) :
    Stack env (.fold kr k :: fs) (H₁ ++ H₂) (κ.fold env recover apply)
  | finalize {env : Environment} {fs : List Frame} {H₁ H₂ : Heap} {κ : Handler} {n : Node} {r : Option Result}
      (hn : n.ComesTo env H₁ r) (hs : Stack env fs H₂ κ) : Stack env (.finalize n :: fs) (H₁ ++ H₂) (κ.finalize r)
  | restore {env env' : Environment} {fs : List Frame} {H : Heap} {κ : Handler} (hs : Stack env' fs H κ) :
    Stack env (.restore env' :: fs) H κ
  /-- A bracket that acquires its resource. -/
  | acquire {env : Environment} {fs : List Frame} {H₂ H₃ H : Heap} {κ : Handler} {b : Lease} {use : Payload → Plan}
      {panics : Payload → Exit Value Payload → Option Panic} {release : Payload → Exit Value Payload → Plan}
      (hu : ∀ p, (b.use p).Comes (fun H o => (use p).Realized H (Node.built o)) H₂) (hr : b.ReleasesAs panics release H₃)
      (hs : Stack env fs H κ) :
    Stack env (b.acquireFrames fs) (H₂ ++ (H₃ ++ (b.cell, none) :: H)) fun
      | .value p => ((use p).result env).bind (κ.afterUse env (panics p) (release p))
      | r => κ r
  /-- A bracket whose resource lies in its cell, and whose use will have been captured. -/
  | resume {env : Environment} {fs : List Frame} {H₃ H : Heap} {κ : Handler} {b : Lease}
      {panics : Payload → Exit Value Payload → Option Panic} {release : Payload → Exit Value Payload → Plan}
      (hr : b.ReleasesAs panics release H₃) (hs : Stack env fs H κ) :
    Stack env (b.resumeFrames fs) (H₃ ++ (b.cell, some b.resource) :: H)
      (κ.release env (panics b.resource) (release b.resource))

/-- A bracket that has come to its resource and has not put it into its cell: the node to be taken next, and the frames above
the guard. -/
inductive Lease.Entering : Lease → Node → List Frame → Prop where
  | handedOver (b : Lease) : Entering b b.handedOver []
  | captured (b : Lease) : Entering b b.start.result [b.resume]
  | start (b : Lease) : Entering b b.start [Lease.capture, b.resume]

/-- A node and the frames below it, and the exit that they come to. -/
inductive Node.LeadsTo (env : Environment) : Node → List Frame → Heap → Option (Exit Value Payload) → Prop where
  | onTop {n : Node} {fs : List Frame} {H₁ H₂ : Heap} {r : Option Result} {κ : Handler} (hn : n.ComesTo env H₁ r)
      (hs : Frame.Stack env fs H₂ κ) : LeadsTo env n fs (H₁ ++ H₂) (r.bind κ)
  /-- A bracket that is about to acquire its resource. -/
  | acquire {acquire : Plan} {n : Node} {fs : List Frame} {H₁ H₂ H₃ H : Heap} {κ : Handler} {b : Lease}
      {use : Payload → Plan} {panics : Payload → Exit Value Payload → Option Panic}
      {release : Payload → Exit Value Payload → Plan} (hn : acquire.Realized H₁ n)
      (hu : ∀ p, (b.use p).Comes (fun H o => (use p).Realized H (Node.built o)) H₂) (hr : b.ReleasesAs panics release H₃)
      (hs : Frame.Stack env fs H κ) :
    LeadsTo env (n.chain b.continuation) (b.guardedFrames fs) (H₁ ++ (H₂ ++ (H₃ ++ (b.cell, none) :: H)))
      ((acquire.result env).bind fun
        | .value p => ((use p).result env).bind (κ.afterUse env (panics p) (release p))
        | r => κ r)
  | enter {n : Node} {above fs : List Frame} {H₂ H₃ H : Heap} {κ : Handler} {b : Lease}
      {use : Plan} {panics : Payload → Exit Value Payload → Option Panic}
      {release : Payload → Exit Value Payload → Plan} (he : b.Entering n above)
      (hu : (b.use b.resource).Comes (fun H o => use.Realized H (Node.built o)) H₂) (hr : b.ReleasesAs panics release H₃)
      (hs : Frame.Stack env fs H κ) :
    LeadsTo env n (above ++ b.guardedFrames fs) (H₂ ++ (H₃ ++ (b.cell, none) :: H))
      ((use.result env).bind (κ.afterUse env (panics b.resource) (release b.resource)))

/-- What frames are popped with, as a result; an interruption carries the failures of finalizers that have been kept. -/
def Outcome.result (suppressed : Cause Value) : Outcome → Result
  | .value p => .value p
  | .failure c => .failure c
  | .interruption => .interrupted suppressed

/-- An interpreter whose token is one of the world's, and which unwinds if it keeps failures of finalizers. -/
structure Interpreter.Steady (m : Interpreter) (o : Outcome) (w : World) : Prop where
  token : m.token < w.tokens.size
  suppressed : o ≠ .interruption → m.suppressed = .empty

mutual
/-- The exit that a process comes to if it is left alone, and the cells that belong to it. -/
inductive Process.Follows (w : World) : Process → Heap → Option (Exit Value Payload) → Prop where
  | next {m : Interpreter} {n : Node} {H : Heap} {x : Option (Exit Value Payload)} (hm : m.Steady (.value .unit) w)
      (hn : n.LeadsTo m.env m.frames.frames H x) : Process.Follows w (.next m n) H x
  | counted {m : Interpreter} {n : Node} {H : Heap} {x : Option (Exit Value Payload)} (hm : m.Steady (.value .unit) w)
      (hn : n.LeadsTo m.env m.frames.frames H x) : Process.Follows w (.counted m n) H x
  | popping {m : Interpreter} {o : Outcome} {H : Heap} {x : Option (Exit Value Payload)} {κ : Handler} (hm : m.Steady o w)
      (hs : Frame.Stack m.env m.frames.frames H κ) (hx : x = κ (o.result m.suppressed)) :
    Process.Follows w (.popping m o) H x
  | finalizing {m : Interpreter} {o : Outcome} {child : Process} {H H₁ H₂ : Heap} {x y : Option (Exit Value Payload)}
      {κ : Handler} (hm : m.Steady o w) (hc : Process.Follows w child H₁ y) (hs : Frame.Stack m.env m.frames.frames H₂ κ)
      (hH : H = H₁ ++ H₂) (hx : x = y.bind fun e => κ ((o.result m.suppressed).finalized e)) :
    Process.Follows w (.finalizing m o child) H x
  | awaiting {m : Interpreter} {a : Awaited} {r : Except (Cause Value) Payload} {H : Heap}
      {x : Option (Exit Value Payload)} {κ : Handler} (hm : m.Steady (.value .unit) w) (hw : w.Watches m.token a.op)
      (ha : a.future.Settles a.onReject r) (hs : Frame.Stack m.env m.frames.frames H κ) (hx : x = κ (.ofExcept r)) :
    Process.Follows w (.awaiting m a) H x
  | joining {m : Interpreter} {g : Group} {seen rest : List Branch} {H H₁ H₂ : Heap} {x : Option (Exit Value Payload)}
      {values : Option (List Payload)} {κ : Handler} (hm : m.Steady (.value .unit) w) (hg : g.failed = false)
      (hb : Branch.AllFollow w (seen.reverse ++ rest) H₁ values) (hs : Frame.Stack m.env m.frames.frames H₂ κ)
      (hH : H = H₁ ++ H₂) (hx : x = values.bind fun values => κ (.value (.list values))) :
    Process.Follows w (.joining m g seen rest) H x
  | settled {e : Exit Value Payload} {H : Heap} {x : Option (Exit Value Payload)} (hx : x = some e) :
    Process.Follows w (.settled e) H x

/-- The values that branches come to if they are left alone and none of them fails. -/
inductive Branch.AllFollow (w : World) : List Branch → Heap → Option (List Payload) → Prop where
  | nil {H : Heap} : Branch.AllFollow w [] H (some [])
  | running {p : Process} {rest : List Branch} {H H₁ H₂ : Heap} {x : Option (Exit Value Payload)}
      {values values' : Option (List Payload)} (hp : Process.Follows w p H₁ x) (hr : Branch.AllFollow w rest H₂ values)
      (hH : H = H₁ ++ H₂)
      (hv : values' = x.bind fun
        | .success p => values.map (p :: ·)
        | .failure _ => none) : Branch.AllFollow w (.running p :: rest) H values'
  | finished {p : Payload} {rest : List Branch} {H : Heap} {values values' : Option (List Payload)}
      (hr : Branch.AllFollow w rest H values) (hv : values' = values.map (p :: ·)) :
    Branch.AllFollow w (.finished (.success p) :: rest) H values'
end

/-- What a turn leaves follows the same exit, and the process has changed no cells but its own. -/
def Turn.Follows (own : CellId → Prop) (w : World) (H : Heap) (x : Option (Exit Value Payload)) (t : Turn) : Prop :=
  ∃ H', t.process.Follows t.world H' x ∧ H.Becomes own w t.world H'

/-! ## Later worlds -/

theorem Interpreter.Steady.later {m : Interpreter} {o : Outcome} {w w' : World} (h : m.Steady o w) (hl : w.Later w') :
    m.Steady o w' :=
  ⟨Nat.lt_of_lt_of_le h.token hl.tokens, h.suppressed⟩

mutual
/-- Whoever else changes the world, a process that is left alone comes to the same exit. -/
theorem Process.Follows.later {p : Process} {w w' : World} {H : Heap} {x : Option (Exit Value Payload)} (hl : w.Later w') :
    p.Follows w H x → p.Follows w' H x
  | .next hm hn => .next (hm.later hl) hn
  | .counted hm hn => .counted (hm.later hl) hn
  | .popping hm hs hx => .popping (hm.later hl) hs hx
  | .finalizing hm hc hs hH hx => .finalizing (hm.later hl) (Process.Follows.later hl hc) hs hH hx
  | .awaiting hm hw ha hs hx => .awaiting (hm.later hl) (hl.watches hw) ha hs hx
  | .joining hm hg hb hs hH hx => .joining (hm.later hl) hg (Branch.AllFollow.later hl hb) hs hH hx
  | .settled hx => .settled hx

theorem Branch.AllFollow.later {bs : List Branch} {w w' : World} {H : Heap} {values : Option (List Payload)}
    (hl : w.Later w') : Branch.AllFollow w bs H values → Branch.AllFollow w' bs H values
  | .nil => .nil
  | .running hp hr hH hv => .running (Process.Follows.later hl hp) (Branch.AllFollow.later hl hr) hH hv
  | .finished hr hv => .finished (Branch.AllFollow.later hl hr) hv
end

/-! ## Frames -/

theorem Result.finalized_success (r : Result) (p : Payload) : r.finalized (.success p) = r := by cases r <;> rfl

/-- The guard of a bracket whose resource is gone makes no difference. -/
theorem Handler.finalize_idle (κ : Handler) : κ.finalize (some (.value .unit)) = κ := by
  funext r
  exact congrArg κ (r.finalized_success .unit)

namespace Frame.Stack

variable {env : Environment} {fs : List Frame} {H : Heap} {κ : Handler} {k : Payload → Action Node} {own : CellId → Prop}
  {w : World}

/-- A continuation is passed over by what is not a value. -/
theorem passed (hs : Stack env (.apply k :: fs) H κ) (r : Result) (hr : r.isValue = false) :
    ∃ H' κ', Stack env fs H' κ' ∧ H'.Sublist H ∧ κ' r = κ r := by
  cases hs with
  | apply h hs =>
    refine ⟨_, _, hs, List.sublist_append_right _ _, ?_⟩
    cases r with
    | value p => nomatch hr
    | failure c | interrupted suppressed => rfl
  | @acquire _ fs H₂ H₃ H κ b use panics release hu hrel hs =>
    refine ⟨[(b.cell, none)] ++ H, _, .finalize (.idle b) hs, ?_, ?_⟩
    · exact (List.sublist_append_right H₃ _).trans (List.sublist_append_right H₂ _)
    · rw [Handler.finalize_idle]
      cases r with
      | value p => nomatch hr
      | failure c | interrupted suppressed => rfl
  | @resume _ fs H₃ H κ b panics release hrel hs =>
    refine ⟨_, _, .finalize (.guard hrel) hs, by simp, ?_⟩
    cases r with
    | value p => nomatch hr
    | failure c | interrupted suppressed => rfl

/-- A continuation is called with a value, and what it builds leads to the same exit. -/
theorem applied (hs : Stack env (.apply k :: fs) H κ) (p : Payload) (hH : H.Stands own w)
    (hmake : ∀ c, w.cells.size ≤ c → c < ((k p).run w).2.cells.size → own c) :
    ∃ H', (Node.built ((k p).run w).1).LeadsTo env fs H' (κ (.value p)) ∧ H.Becomes own w ((k p).run w).2 H' := by
  cases hs with
  | apply h hs =>
    obtain ⟨H', hn, hrun⟩ := (h p).run (Heap.stands_append.mp hH).1 hmake
    exact ⟨_, .onTop (.plan hn) hs, hrun.front hH⟩
  | @acquire _ fs H₂ H₃ H κ b use panics release hu hrel hs =>
    exact ⟨_, .enter (.handedOver (b.lent p)) (hu p) hrel hs, .refl hH⟩
  | @resume _ fs H₃ H κ b panics release hrel hs =>
    have hput : Heap.Becomes own w _ (b.emptied w) (H₃ ++ (b.cell, none) :: H) := .put hH none
    have hlies : b.Holds w := hH.lies (b.cell, some b.resource) (by simp)
    have hrun : (Node.onExit (Node.releaseAfterUse b.cell b.release) p).run w =
        (Action.bind (Node.releasing b.release b.resource p.told) fun n =>
          .pure (n.result.chain (Node.onExit fun r => return Node.afterRelease p.told r))).run (b.emptied w) := by
      have htake := hlies.take
      rw [Node.onExit_told]
      simp only [Node.releaseAfterUse, Action.perform, bind, Action.bind, Action.run, Command.run, htake]
      rfl
    rw [hrun] at hmake ⊢
    have hsize : (b.emptied w).cells.size = w.cells.size := by simp [Lease.emptied]
    obtain ⟨H', hn, hrel⟩ := (hrel.releasing b.resource p.told).run (Heap.stands_append.mp hput.stands).1
      (by rwa [hsize])
    exact ⟨H' ++ ([(b.cell, none)] ++ H), .onTop (.plan hn) (by
      have := Frame.Stack.finalize (.idle b) hs
      rwa [Handler.finalize_idle] at this), hput.trans (hrel.front hput.stands)⟩

/-- A handler is called with a value. -/
theorem folded_value {kr : Cause Value → Action Node} (hs : Stack env (.fold kr k :: fs) H κ) (p : Payload)
    (hH : H.Stands own w) (hmake : ∀ c, w.cells.size ≤ c → c < ((k p).run w).2.cells.size → own c) :
    ∃ H', (Node.built ((k p).run w).1).LeadsTo env fs H' (κ (.value p)) ∧ H.Becomes own w ((k p).run w).2 H' := by
  cases hs with
  | fold hr h hs =>
    obtain ⟨H', hn, hrun⟩ := (h p).run (Heap.stands_append.mp hH).1 hmake
    exact ⟨_, .onTop (.plan hn) hs, hrun.front hH⟩

/-- A handler is called with a failure. -/
theorem folded_failure {kr : Cause Value → Action Node} (hs : Stack env (.fold kr k :: fs) H κ) (c : Cause Value)
    (hH : H.Stands own w) (hmake : ∀ i, w.cells.size ≤ i → i < ((kr c).run w).2.cells.size → own i) :
    ∃ H', (Node.built ((kr c).run w).1).LeadsTo env fs H' (κ (.failure c)) ∧ H.Becomes own w ((kr c).run w).2 H' := by
  cases hs with
  | fold hr h hs =>
    obtain ⟨H', hn, hrun⟩ := (hr c).run (Heap.stands_append.mp hH).1 hmake
    exact ⟨_, .onTop (.plan hn) hs, hrun.front hH⟩

/-- The frame that captures how a use ends. -/
theorem capture {b : Lease} {panics : Payload → Exit Value Payload → Option Panic}
    {release : Payload → Exit Value Payload → Plan}
    (hs : Stack env fs H (κ.release env (panics b.resource) (release b.resource))) :
    Stack env (Lease.capture :: fs) H (κ.afterUse env (panics b.resource) (release b.resource)) := by
  have hfold := @Frame.Stack.fold env fs [] H _ (fun c => .succeed (.exit (.failure c)))
    (fun p => .succeed (.exit (.success p))) _ _ (fun _ => .pure rfl) (fun _ => .pure rfl) hs
  refine cast (congrArg _ (funext fun r => ?_)) hfold
  cases r with
  | value p =>
    show _ = (Result.afterUse _ _ _).bind κ
    rw [afterUse_used (by simp)]
    rfl
  | failure c =>
    show _ = (Result.afterUse _ _ _).bind κ
    rw [afterUse_used (by simp)]
    rfl
  | interrupted suppressed =>
    show _ = (Result.afterUse _ _ _).bind κ
    rw [afterUse_interrupted]
    show Option.bind _ _ = _
    cases (guarding (panics b.resource .interrupted) (release b.resource .interrupted)).result env <;> rfl

end Frame.Stack

end Interruptible
