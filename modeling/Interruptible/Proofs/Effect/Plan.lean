import Interruptible.Proofs.Effect.ReleaseOnce
import Interruptible.Proofs.Machine.Evaluation
import Interruptible.Proofs.World.Heaps

/-!
# Plans

What an effect with pure callbacks computes, without a word on when: a plan has the shape of the effect, its callbacks are
functions, and of a host future it says what comes of it, but not how long that takes. `Plan.result` is what a plan comes to
in an environment. An effect that carries out a plan (`Plan.Realized`) may take any time over its futures, and makes cells for
its brackets, which nobody else knows of.
-/

namespace Interruptible

/-! ## What the parts of an effect come to -/

/-- What a computation comes to: a panic is a defect. -/
def Cause.computed : Except Panic (Except (Cause Value) Payload) → Except (Cause Value) Payload
  | .ok r => r
  | .error p => .error (.die p.defect)

/-- What is made of the cause of a rejection: a panic is a defect. -/
def Cause.rejected : Except Panic (Cause Value) → Cause Value
  | .ok c => c
  | .error p => .die p.defect

theorem evaluate_eq (thunk : Action (Except (Cause Value) Payload)) (w : World) :
    evaluate thunk w = (Cause.computed (thunk.run w).1, (thunk.run w).2) := by
  unfold evaluate
  split <;> rename_i h <;> rw [h] <;> rfl

/-- Whatever the world answers and however long it takes, a future that settles comes to this. -/
def Future.Settles (onReject : Value → Action (Cause Value)) (r : Except (Cause Value) Payload) : Future → Prop
  | .settle (.ok p) => r = .ok p
  | .settle (.error x) => (onReject x).Comes (fun _ o => r = .error (Cause.rejected o)) []
  | .panic p => r = .error (.die p.defect)
  | .never => True
  | .ask _ next => ∀ a, (next a).Settles onReject r
  | .subscribe _ _ next => ∀ s, (next s).Settles onReject r
  | .register _ _ next | .sleep _ next | .sleepUntil _ next | .yield _ next | .wait _ next => next.Settles onReject r

namespace Result

/-- What a computation or a host future comes to. -/
def ofExcept : Except (Cause Value) Payload → Result
  | .ok p => .value p
  | .error c => .failure c

/-- What an effect comes to that ends with an exit that is known already. -/
def ofExit : Exit Value Payload → Result
  | .success p => .value p
  | .failure c => .failure c

/-- What a bracket comes to once its resource has been released. -/
def released (used : Exit Value Payload) : Result → Result
  | .value _ => ofExit used
  | .failure r =>
    match used with
    | .success _ => .failure r
    | .failure c => .failure (c.andThen r)
  | .interrupted suppressed => .interrupted suppressed

/-- What comes of the use of a resource and of its release. A release that panics takes the place of everything but an
interruption. -/
def afterUse (panics : Exit Value Payload → Option Panic) (release : Exit Value Payload → Option Result) :
    Result → Option Result
  | .interrupted suppressed =>
    ((panics .interrupted).elim (release .interrupted) fun p => some (.failure (.die p.defect))).map fun r =>
      finalized (.interrupted suppressed) r.exit
  | used =>
    (panics used.exit).elim ((release used.exit).map (released used.exit)) fun p => some (.failure (.die p.defect))

end Result

/-! ## Plans and their results -/

/-- An effect whose callbacks are functions. -/
inductive Plan where
  | succeed (p : Payload)
  /-- Succeed or fail with what a computation gives. -/
  | compute (r : Except (Cause Value) Payload)
  | fail (c : Cause Value)
  | interrupt
  | asks (read : Environment → Plan)
  | give (inner : Plan) (env : Environment)
  | all (children : List Plan)
  | defer (inner : Plan)
  /-- Await a host future that comes to this, if it settles. -/
  | await (r : Except (Cause Value) Payload)
  | chain (inner : Plan) (apply : Payload → Plan)
  | matchCause (inner : Plan) (recover : Cause Value → Plan) (apply : Payload → Plan)
  | ensuring (inner finalizer : Plan)
  /-- Acquire a resource, use it and release it; the release may panic. -/
  | bracket (acquire : Plan) (use : Payload → Plan) (panics : Payload → Exit Value Payload → Option Panic)
    (release : Payload → Exit Value Payload → Plan)

namespace Plan

mutual
/-- What a plan comes to in an environment, unless a branch of a group comes to something else than a value. -/
def result : Plan → Environment → Option Result
  | .succeed p, _ => some (.value p)
  | .compute r, _ => some (.ofExcept r)
  | .fail c, _ => some (.failure c)
  | .interrupt, _ => some (.interrupted .empty)
  | .asks read, env => (read env).result env
  | .give inner env, _ => inner.result env
  | .all children, env => (results children env).map fun values => .value (.list values)
  | .defer inner, env => inner.result env
  | .await r, _ => some (.ofExcept r)
  | .chain inner apply, env =>
    (inner.result env).bind fun
      | .value p => (apply p).result env
      | r => some r
  | .matchCause inner recover apply, env =>
    (inner.result env).bind fun
      | .value p => (apply p).result env
      | .failure c => (recover c).result env
      | r => some r
  | .ensuring inner finalizer, env =>
    (inner.result env).bind fun r => (finalizer.result env).map fun f => r.finalized f.exit
  | .bracket acquire use panics release, env =>
    (acquire.result env).bind fun
      | .value resource =>
        ((use resource).result env).bind
          (Result.afterUse (panics resource) fun used => (release resource used).result env)
      | r => some r

/-- What plans come to side by side: their values, if these are all that they come to. -/
def results : List Plan → Environment → Option (List Payload)
  | [], _ => some []
  | plan :: rest, env =>
    (plan.result env).bind fun
      | .value p => (results rest env).map (p :: ·)
      | _ => none
end

mutual
/-- A tree carries out a plan: its callbacks come to what the functions of the plan say, its futures settle accordingly, and
the cells of the heap are those that its brackets have, each for one bracket. -/
def Realized : Plan → Heap → Node → Prop
  | .succeed p, _, n => n = .succeed p
  | .compute r, H, n => ∃ thunk, n = .succeedLazy thunk ∧ thunk.Comes (fun _ o => Cause.computed o = r) H
  | .fail c, _, n => n = .fail c
  | .interrupt, _, n => n = .interrupt
  | .asks read, H, n =>
    ∃ read', n = .asks read' ∧ ∀ env, (read' env).Comes (fun H o => (read env).Realized H (Node.built o)) H
  | .give inner env, H, n => ∃ inner', n = .give inner' env ∧ inner.Realized H inner'
  | .all children, H, n => ∃ children', n = .all children' ∧ AllRealized children H children'
  | .defer inner, H, n =>
    ∃ factory, n = .defer factory ∧ factory.Comes (fun H o => inner.Realized H (Node.built o)) H
  | .await r, H, n =>
    ∃ factory onReject, n = .liftPromise factory onReject ∧ ∀ op, (factory op).Comes (fun _ o =>
      match o with
      | .ok future => future.Settles onReject r
      | .error p => r = .error (.die p.defect)) H
  | .chain inner apply, H, n =>
    ∃ inner' apply' H₁ H₂, n = .chain inner' apply' ∧ H = H₁ ++ H₂ ∧ inner.Realized H₁ inner' ∧
      ∀ p, (apply' p).Comes (fun H o => (apply p).Realized H (Node.built o)) H₂
  | .matchCause inner recover apply, H, n =>
    ∃ inner' recover' apply' H₁ H₂, n = .matchCause inner' recover' apply' ∧ H = H₁ ++ H₂ ∧ inner.Realized H₁ inner' ∧
      (∀ c, (recover' c).Comes (fun H o => (recover c).Realized H (Node.built o)) H₂) ∧
        ∀ p, (apply' p).Comes (fun H o => (apply p).Realized H (Node.built o)) H₂
  | .ensuring inner finalizer, H, n =>
    ∃ inner' finalizer' H₁ H₂, n = .ensuring inner' finalizer' ∧ H = H₁ ++ H₂ ∧ inner.Realized H₁ inner' ∧
      finalizer.Realized H₂ finalizer'
  | .bracket acquire use panics release, H, n =>
    ∃ acquire' H₁ H₂ H₃, ∃ b : Lease, n = b.bracketed acquire' ∧ H = H₁ ++ (H₂ ++ (H₃ ++ [(b.cell, none)])) ∧
      acquire.Realized H₁ acquire' ∧
        (∀ p, (b.use p).Comes (fun H o => (use p).Realized H (Node.built o)) H₂) ∧
          ∀ p used, (b.release p used).Comes (fun H o =>
            match o with
            | .ok n => panics p used = none ∧ (release p used).Realized H n
            | .error pn => panics p used = some pn) H₃

/-- Trees carry out plans, one each, with cells of their own. -/
def AllRealized : List Plan → Heap → List Node → Prop
  | [], _, ns => ns = []
  | plan :: rest, H, ns =>
    ∃ n ns' H₁ H₂, ns = n :: ns' ∧ H = H₁ ++ H₂ ∧ plan.Realized H₁ n ∧ AllRealized rest H₂ ns'
end

/-! ## The parts of a bracket as plans -/

/-- Drops what a plan succeeds with. -/
def asUnit (plan : Plan) : Plan := .chain plan fun _ => .succeed .unit

/-- Succeeds with the exit of a plan. -/
def captured (plan : Plan) : Plan :=
  .matchCause plan (fun c => .succeed (.exit (.failure c))) fun p => .succeed (.exit (.success p))

/-- Ends with an exit that is known already. -/
def done : Exit Value Payload → Plan
  | .success p => .succeed p
  | .failure c => .fail c

/-- How a bracket ends once its resource has been released. -/
def afterRelease (used released : Exit Value Payload) : Plan :=
  match used, released with
  | used, .success _ => done used
  | .failure c, .failure r => .fail (c.andThen r)
  | .success _, .failure r => .fail r

/-- What the guard of a bracket goes on with when it has called the release. -/
def guarding (panics : Option Panic) (release : Plan) : Plan :=
  panics.elim release.asUnit fun p => .fail (.die p.defect)

/-- What the continuation of the use goes on with when it has called the release. -/
def releasing (panics : Option Panic) (release : Plan) (used : Exit Value Payload) : Plan :=
  panics.elim (.chain release.asUnit.captured fun p => afterRelease used p.told) fun p => .fail (.die p.defect)

variable {env : Environment} {panics : Exit Value Payload → Option Panic} {release : Exit Value Payload → Plan}

theorem result_afterRelease (used released : Exit Value Payload) :
    (afterRelease used released).result env = some ((Result.ofExit released).released used) := by
  cases released with
  | success p => cases used <;> rfl
  | failure c => cases used <;> rfl

/-- The continuation of the use comes to what is to be made of the use and the release. -/
theorem result_releasing (panics : Option Panic) (release : Plan) (used : Exit Value Payload) :
    (releasing panics release used).result env =
      panics.elim ((release.result env).map (Result.released used)) fun p => some (.failure (.die p.defect)) := by
  cases panics with
  | some p => rfl
  | none =>
    simp only [releasing, Option.elim, asUnit, captured, result]
    cases release.result env with
    | none => rfl
    | some r =>
      cases r with
      | interrupted suppressed => rfl
      | value p | failure c => exact result_afterRelease used _

/-- The guard does so after an interrupted use. -/
theorem afterUse_interrupted (suppressed : Cause Value) :
    Result.afterUse panics (fun used => (release used).result env) (.interrupted suppressed) =
      ((guarding (panics .interrupted) (release .interrupted)).result env).map fun f =>
        (Result.interrupted suppressed).finalized f.exit := by
  simp only [Result.afterUse, guarding]
  cases panics .interrupted with
  | some p => rfl
  | none =>
    simp only [Option.elim, asUnit, result]
    cases (release .interrupted).result env with
    | none => rfl
    | some r => cases r <;> rfl

/-- The continuation does so after any other use. -/
theorem afterUse_used {r : Result} (hr : ∀ suppressed, r ≠ .interrupted suppressed) :
    Result.afterUse panics (fun used => (release used).result env) r =
      (releasing (panics r.exit) (release r.exit) r.exit).result env := by
  rw [result_releasing]
  cases r with
  | interrupted suppressed => exact absurd rfl (hr suppressed)
  | value p | failure c => rfl

namespace Realized

variable {plan : Plan} {H : Heap} {n : Node}

theorem asUnit (h : plan.Realized H n) : plan.asUnit.Realized H n.asUnit :=
  ⟨n, _, H, [], rfl, by simp, h, fun _ => .pure rfl⟩

theorem captured (h : plan.Realized H n) : plan.captured.Realized H n.result :=
  ⟨n, _, _, H, [], rfl, by simp, h, fun _ => .pure rfl, fun _ => .pure rfl⟩

theorem afterRelease (H : Heap) (used released : Exit Value Payload) :
    (Plan.afterRelease used released).Realized H (Node.afterRelease used released) := by
  cases released with
  | success p => cases used <;> rfl
  | failure c => cases used <;> rfl

end Realized

end Plan

/-- The release of a bracket comes to what the functions of a plan say. -/
def Lease.ReleasesAs (b : Lease) (panics : Payload → Exit Value Payload → Option Panic)
    (release : Payload → Exit Value Payload → Plan) (H : Heap) : Prop :=
  ∀ p used, (b.release p used).Comes (fun H o =>
    match o with
    | .ok n => panics p used = none ∧ (release p used).Realized H n
    | .error pn => panics p used = some pn) H

/-- What is made of the result of an action. -/
theorem Action.Comes.map {α β : Type} {Q : Heap → Except Panic α → Prop} {Q' : Heap → Except Panic β → Prop} {f : α → β}
    {a : Action α} {H : Heap} (h : a.Comes Q H) (hok : ∀ H x, Q H (.ok x) → Q' H (.ok (f x)))
    (herror : ∀ H p, Q H (.error p) → Q' H (.error p)) : (a.bind fun x => .pure (f x)).Comes Q' H := by
  induction h with
  | pure h => exact .pure (hok _ _ h)
  | panic h => exact .panic (herror _ _ h)
  | newCell _ ih => exact .newCell ih
  | ask hc _ ih => exact .ask hc ih

namespace Lease.ReleasesAs

variable {b : Lease} {panics : Payload → Exit Value Payload → Option Panic} {release : Payload → Exit Value Payload → Plan}
  {H : Heap}

/-- The guard calls the release and goes on with what it builds. -/
theorem guarding (h : b.ReleasesAs panics release H) (p : Payload) (used : Exit Value Payload) :
    (Node.releasing b.release p used).Comes
      (fun H o => (Plan.guarding (panics p used) (release p used)).Realized H (Node.built o)) H :=
  (h p used).map
    (fun H n ⟨hp, hn⟩ => by rw [hp]; exact Plan.Realized.asUnit hn)
    (fun H pn hp => by rw [show panics p used = some pn from hp]; rfl)

/-- The continuation of the use calls the release, goes on with what it builds, and then with the exit that it captures. -/
theorem releasing (h : b.ReleasesAs panics release H) (p : Payload) (used : Exit Value Payload) :
    (Action.bind (Node.releasing b.release p used) fun n =>
      .pure (n.result.chain (Node.onExit fun r => return Node.afterRelease used r))).Comes
      (fun H o => (Plan.releasing (panics p used) (release p used) used).Realized H (Node.built o)) H := by
  have hunit : (Node.releasing b.release p used).Comes (fun H o =>
      match o with
      | .ok n => panics p used = none ∧ (release p used).asUnit.Realized H n
      | .error pn => panics p used = some pn) H :=
    (h p used).map (fun H n ⟨hp, hn⟩ => ⟨hp, hn.asUnit⟩) fun H pn hp => hp
  refine hunit.map (fun H n ⟨hp, hn⟩ => ?_) fun H pn hp => ?_
  · rw [hp]
    refine ⟨_, _, H, [], rfl, by simp, hn.captured, fun p => ?_⟩
    rw [Node.onExit_told]
    exact .pure (Plan.Realized.afterRelease [] used p.told)
  · rw [show panics p used = some pn from hp]
    rfl

end Lease.ReleasesAs

end Interruptible
