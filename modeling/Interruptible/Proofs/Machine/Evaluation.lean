import Interruptible.Proofs.World.Alike
import Interruptible.Proofs.Machine.Calls

/-!
# What a tree evaluates to

The meaning of trees without groups, by recursion on the tree and without a stack: a chain feeds a success to its
continuation and passes anything else on; a match calls one of its two handlers, and neither after an interruption; a
finalizer is evaluated in isolation, under a token of its own, after the effect that it stands beside; another environment
holds for the inner tree alone; an interruption skips everything but finalizers.

What the callbacks do depends on the world, and others change the world as well. They may do so before and after everything
that is evaluated, with one exception: a lazy success that is chained to a continuation is handed over at once.
-/

namespace Interruptible

/-- What others may do to the world in the meantime: anything that leads to a later world, and at least what the runtime
notes down. -/
structure Surroundings (R : World → World → Prop) : Prop where
  trans : ∀ {w₁ w₂ w₃ : World}, R w₁ w₂ → R w₂ w₃ → R w₁ w₃
  alike : ∀ {w v : World}, w.Alike v → R w v
  later : ∀ {w v : World}, R w v → w.Later v

/-- Others may do anything that callbacks, listeners and futures do. -/
theorem surroundings_later : Surroundings World.Later where
  trans := .trans
  alike h := .of_eq h.tokens h.operations
  later h := h

/-- There is nobody else. -/
theorem surroundings_alike : Surroundings World.Alike where
  trans := .trans
  alike h := h
  later h := .of_eq h.tokens h.operations

/-- What a tree evaluates to. An interruption carries the failures of the finalizers that have run since. -/
inductive Result where
  | value (p : Payload)
  | failure (c : Cause Value)
  | interrupted (suppressed : Cause Value)

namespace Result

/-- The exit that an interpreter settles with. -/
def exit : Result → Exit Value Payload
  | .value p => .success p
  | .failure c => .failure c
  | .interrupted suppressed => .failure (Cause.interrupt.andThen suppressed)

/-- Whether there is a value to go on with. -/
def isValue : Result → Bool
  | .value _ => true
  | _ => false

/-- The result once a finalizer has ended: a failing finalizer takes the place of a value, and is appended to a failure and to
what an interruption carries. -/
def finalized : Result → Exit Value Payload → Result
  | r, .success _ => r
  | .value _, .failure fc => .failure fc
  | .failure c, .failure fc => .failure (c.andThen fc)
  | .interrupted suppressed, .failure fc => .interrupted (suppressed.andThen fc)

theorem isFailure_exit (r : Result) : r.exit.isFailure = !r.isValue := by cases r <;> rfl

end Result

/-- A lazy success is the only tree whose value is handed over at once. -/
def Node.isLazy : Node → Bool
  | .succeedLazy _ => true
  | _ => false

/-- The leaf that a lazy success turns into once its computation has been done. -/
def Node.leaf : Except (Cause Value) Payload → Node
  | .ok p => .succeed p
  | .error c => .fail c

/-- An awaited future is polled until it settles: the callbacks called, and the tree to go on with. -/
inductive Awaits (R : World → World → Prop) (t : TokenId) : Awaited → World → List Call → Node → World → Prop where
  | before {a : Awaited} {w w₁ w₂ : World} {L : List Call} {n : Node} (hm : R w w₁) (h : Awaits R t a w₁ L n w₂) :
    Awaits R t a w L n w₂
  | pending {a : Awaited} {w w₁ w₂ : World} {L : List Call} {n : Node} {rest : Future} (ho : w.isInterrupted t = false)
      (hp : a.future.poll a.op (w.attend a.op) = (.pending rest, w₁)) (h : Awaits R t { a with future := rest } w₁ L n w₂) :
    Awaits R t a w L n w₂
  | resolved {a : Awaited} {w w₁ : World} {p : Payload} (ho : w.isInterrupted t = false)
      (hp : a.future.poll a.op (w.attend a.op) = (.settled (.ok p), w₁)) :
    Awaits R t a w [] (.succeed p) ((w₁.unsubscribe a.stopper).forget a.op)
  | rejected {a : Awaited} {w w₁ w₂ : World} {x : Value} {n : Node} (ho : w.isInterrupted t = false)
      (hp : a.future.poll a.op (w.attend a.op) = (.settled (.error x), w₁))
      (hg : guarded (do return .fail (← a.onReject x)) ((w₁.unsubscribe a.stopper).forget a.op) = (n, w₂)) :
    Awaits R t a w [.reject a.onReject x] n w₂
  | panicked {a : Awaited} {w w₁ : World} {p : Panic} (ho : w.isInterrupted t = false)
      (hp : a.future.poll a.op (w.attend a.op) = (.panicked p, w₁)) :
    Awaits R t a w [] (.die p.defect) ((w₁.unsubscribe a.stopper).forget a.op)

/-- A tree evaluates, under a token and in an environment, to a result: the callbacks that are called, in that order, and the
world before and after. Nobody has tripped the token at any leaf. -/
inductive Evaluates (R : World → World → Prop) :
    TokenId → Environment → Node → World → List Call → Result → World → Prop where
  | before {t : TokenId} {env : Environment} {n : Node} {w w₁ w₂ : World} {L : List Call} {r : Result} (hm : R w w₁)
      (h : Evaluates R t env n w₁ L r w₂) : Evaluates R t env n w L r w₂
  | after {t : TokenId} {env : Environment} {n : Node} {w w₁ w₂ : World} {L : List Call} {r : Result}
      (hn : n.isLazy = false) (h : Evaluates R t env n w L r w₁) (hm : R w₁ w₂) : Evaluates R t env n w L r w₂
  | succeed {t : TokenId} {env : Environment} {p : Payload} {w : World} (ho : w.isInterrupted t = false) :
    Evaluates R t env (.succeed p) w [] (.value p) w
  | fail {t : TokenId} {env : Environment} {c : Cause Value} {w : World} (ho : w.isInterrupted t = false) :
    Evaluates R t env (.fail c) w [] (.failure c) w
  | interrupt {t : TokenId} {env : Environment} {w : World} (ho : w.isInterrupted t = false) :
    Evaluates R t env .interrupt w [] (.interrupted .empty) (w.interrupt t)
  | lazyValue {t : TokenId} {env : Environment} {thunk : Action (Except (Cause Value) Payload)} {p : Payload}
      {w w₁ : World} (hv : evaluate thunk w = (.ok p, w₁)) (ho : w₁.isInterrupted t = false) :
    Evaluates R t env (.succeedLazy thunk) w [.thunk thunk] (.value p) w₁
  | lazyFailure {t : TokenId} {env : Environment} {thunk : Action (Except (Cause Value) Payload)} {c : Cause Value}
      {w w₁ w₂ : World} {L : List Call} {r : Result} (hv : evaluate thunk w = (.error c, w₁))
      (h : Evaluates R t env (.fail c) w₁ L r w₂) : Evaluates R t env (.succeedLazy thunk) w (.thunk thunk :: L) r w₂
  | asks {t : TokenId} {env : Environment} {read : Environment → Action Node} {n : Node} {w w₁ w₂ : World}
      {L : List Call} {r : Result} (hg : guarded (read env) w = (n, w₁)) (h : Evaluates R t env n w₁ L r w₂) :
    Evaluates R t env (.asks read) w (.read read env :: L) r w₂
  | defer {t : TokenId} {env : Environment} {factory : Action Node} {n : Node} {w w₁ w₂ : World} {L : List Call}
      {r : Result} (hg : guarded factory w = (n, w₁)) (h : Evaluates R t env n w₁ L r w₂) :
    Evaluates R t env (.defer factory) w (.factory factory :: L) r w₂
  | give {t : TokenId} {env env' : Environment} {inner : Node} {w w₁ : World} {L : List Call} {r : Result}
      (h : Evaluates R t env' inner w L r w₁) : Evaluates R t env (.give inner env') w L r w₁
  | chainValue {t : TokenId} {env : Environment} {inner n : Node} {k : Payload → Action Node} {p : Payload}
      {w w₁ w₂ w₃ : World} {L₁ L₂ : List Call} {r : Result} (h₁ : Evaluates R t env inner w L₁ (.value p) w₁)
      (hg : guarded (k p) w₁ = (n, w₂)) (h₂ : Evaluates R t env n w₂ L₂ r w₃) :
    Evaluates R t env (.chain inner k) w (L₁ ++ .apply k p :: L₂) r w₃
  | chainPass {t : TokenId} {env : Environment} {inner : Node} {k : Payload → Action Node} {w w₁ : World}
      {L : List Call} {r : Result} (h : Evaluates R t env inner w L r w₁) (hr : r.isValue = false) :
    Evaluates R t env (.chain inner k) w L r w₁
  | matchValue {t : TokenId} {env : Environment} {inner n : Node} {recover : Cause Value → Action Node}
      {k : Payload → Action Node} {p : Payload} {w w₁ w₂ w₃ w₄ : World} {L₁ L₂ : List Call} {r : Result}
      (h₁ : Evaluates R t env inner w L₁ (.value p) w₁) (hm : R w₁ w₂) (hg : guarded (k p) w₂ = (n, w₃))
      (h₂ : Evaluates R t env n w₃ L₂ r w₄) :
    Evaluates R t env (.matchCause inner recover k) w (L₁ ++ .apply k p :: L₂) r w₄
  | matchFailure {t : TokenId} {env : Environment} {inner n : Node} {recover : Cause Value → Action Node}
      {k : Payload → Action Node} {c : Cause Value} {w w₁ w₂ w₃ w₄ : World} {L₁ L₂ : List Call} {r : Result}
      (h₁ : Evaluates R t env inner w L₁ (.failure c) w₁) (hm : R w₁ w₂) (hg : guarded (recover c) w₂ = (n, w₃))
      (h₂ : Evaluates R t env n w₃ L₂ r w₄) :
    Evaluates R t env (.matchCause inner recover k) w (L₁ ++ .recover recover c :: L₂) r w₄
  | matchInterrupted {t : TokenId} {env : Environment} {inner : Node} {recover : Cause Value → Action Node}
      {k : Payload → Action Node} {suppressed : Cause Value} {w w₁ : World} {L : List Call}
      (h : Evaluates R t env inner w L (.interrupted suppressed) w₁) :
    Evaluates R t env (.matchCause inner recover k) w L (.interrupted suppressed) w₁
  | ensuring {t : TokenId} {env : Environment} {inner finalizer : Node} {w w₁ w₂ w₃ w₄ : World} {L₁ L₂ : List Call}
      {r rf : Result} (h₁ : Evaluates R t env inner w L₁ r w₁) (hm : R w₁ w₂)
      (h₂ : Evaluates R w₂.newToken.1 env finalizer w₂.newToken.2 L₂ rf w₃) (hm' : R w₃ w₄)
      (ho : r.isValue = true → rf.isValue = false → w₄.isInterrupted t = false) :
    Evaluates R t env (.ensuring inner finalizer) w (L₁ ++ L₂) (r.finalized rf.exit) w₄
  | promise {t : TokenId} {env : Environment} {factory : OperationId → Action Future}
      {onReject : Value → Action (Cause Value)} {stopper : Subscription} {future : Future} {n : Node}
      {w w₁ w₂ w₃ w₄ : World} {L₁ L₂ : List Call} {r : Result} (ho : w.isInterrupted t = false)
      (hs : w.newOperation.2.react t (.stop w.newOperation.1) = (some stopper, w₁))
      (hf : (factory w.newOperation.1).run w₁ = (.ok future, w₂))
      (ha : Awaits R t { op := w.newOperation.1, stopper, future, onReject } w₂ L₁ n w₃)
      (h : Evaluates R t env n w₃ L₂ r w₄) :
    Evaluates R t env (.liftPromise factory onReject) w (.promise factory w.newOperation.1 :: (L₁ ++ L₂)) r w₄
  | promisePanicked {t : TokenId} {env : Environment} {factory : OperationId → Action Future}
      {onReject : Value → Action (Cause Value)} {stopper : Subscription} {panic : Panic} {w w₁ w₂ w₃ : World}
      {L : List Call} {r : Result} (ho : w.isInterrupted t = false)
      (hs : w.newOperation.2.react t (.stop w.newOperation.1) = (some stopper, w₁))
      (hf : (factory w.newOperation.1).run w₁ = (.error panic, w₂))
      (h : Evaluates R t env (.die panic.defect) (w₂.unsubscribe stopper) L r w₃) :
    Evaluates R t env (.liftPromise factory onReject) w (.promise factory w.newOperation.1 :: L) r w₃

/-! ## Evaluation and the world -/

namespace Surroundings

variable {R : World → World → Prop}

theorem refl (hR : Surroundings R) (w : World) : R w w := hR.alike (.refl w)

/-- What has been tripped later has not been tripped before. -/
theorem untripped (hR : Surroundings R) {w v : World} (hm : R w v) {t : TokenId} (ho : v.isInterrupted t = false) :
    w.isInterrupted t = false :=
  (hR.later hm).untripped ho

end Surroundings

theorem Awaits.later {R : World → World → Prop} (hR : Surroundings R) {t : TokenId} {a : Awaited} {w w' : World}
    {L : List Call} {n : Node} (h : Awaits R t a w L n w') : w.Later w' := by
  have hend : ∀ (a : Awaited) (v : World), v.Later ((v.unsubscribe a.stopper).forget a.op) := fun a v =>
    (World.unsubscribe_later v _).trans (World.forget_later _ _)
  have hpoll : ∀ (a : Awaited) (v : World), v.Later (a.future.poll a.op (v.attend a.op)).2 := fun a v =>
    (World.attend_later v a.op).trans (a.future.poll_later a.op _)
  induction h with
  | before hm _ ih => exact (hR.later hm).trans ih
  | pending _ hp _ ih => exact ((hpoll _ _).answer hp).trans ih
  | resolved _ hp | panicked _ hp => exact ((hpoll _ _).answer hp).trans (hend _ _)
  | rejected _ hp hg => exact (((hpoll _ _).answer hp).trans (hend _ _)).trans ((guarded_later _ _).answer hg)

/-- A host future has been begun: its token would stop it, and its factory has been called. -/
theorem begun_later {t : TokenId} {f : Action Future} {s : Option Subscription} {x : Except Panic Future} {w w₁ w₂ : World}
    (hs : w.newOperation.2.react t (.stop w.newOperation.1) = (s, w₁)) (hf : f.run w₁ = (x, w₂)) : w.Later w₂ :=
  ((World.react_stop_later w t).answer hs).trans ((f.run_later w₁).answer hf)

namespace Evaluates

variable {R : World → World → Prop} {t : TokenId} {env : Environment} {n : Node} {w w' : World} {L : List Call}
  {r : Result}

/-- Evaluation leads to a later world. -/
theorem later (hR : Surroundings R) (h : Evaluates R t env n w L r w') : w.Later w' := by
  induction h with
  | before hm _ ih => exact (hR.later hm).trans ih
  | after _ _ hm ih => exact ih.trans (hR.later hm)
  | succeed | fail => exact .refl _
  | interrupt => exact World.interrupt_later _ _
  | lazyValue hv => exact (evaluate_later _ _).answer hv
  | lazyFailure hv _ ih => exact ((evaluate_later _ _).answer hv).trans ih
  | asks hg _ ih | defer hg _ ih => exact ((guarded_later _ _).answer hg).trans ih
  | give _ ih | chainPass _ _ ih | matchInterrupted _ ih => exact ih
  | chainValue _ hg _ ih₁ ih₂ => exact (ih₁.trans ((guarded_later _ _).answer hg)).trans ih₂
  | matchValue _ hm hg _ ih₁ ih₂ | matchFailure _ hm hg _ ih₁ ih₂ =>
    exact ((ih₁.trans (hR.later hm)).trans ((guarded_later _ _).answer hg)).trans ih₂
  | ensuring _ hm _ hm' _ ih₁ ih₂ =>
    exact (((ih₁.trans (hR.later hm)).trans (World.newToken_later _)).trans ih₂).trans (hR.later hm')
  | promise _ hs hf ha _ ih => exact ((begun_later hs hf).trans (ha.later hR)).trans ih
  | promisePanicked _ hs hf _ ih => exact ((begun_later hs hf).trans (World.unsubscribe_later _ _)).trans ih

/-- Nobody has tripped the token of a tree that is about to be evaluated. -/
theorem untripped (hR : Surroundings R) (h : Evaluates R t env n w L r w') : w.isInterrupted t = false := by
  induction h with
  | before hm _ ih => exact hR.untripped hm ih
  | after _ _ _ ih | give _ ih | chainPass _ _ ih | matchInterrupted _ ih => exact ih
  | succeed ho | fail ho | interrupt ho | promise ho | promisePanicked ho => exact ho
  | lazyValue hv ho => exact ((evaluate_later _ _).answer hv).untripped ho
  | lazyFailure hv _ ih => exact ((evaluate_later _ _).answer hv).untripped ih
  | asks hg _ ih | defer hg _ ih => exact ((guarded_later _ _).answer hg).untripped ih
  | chainValue _ _ _ ih | matchValue _ _ _ _ ih | matchFailure _ _ _ _ ih | ensuring _ _ _ _ _ ih => exact ih

/-- What a success evaluates to. -/
theorem of_succeed (hR : Surroundings R) {p : Payload} (h : Evaluates R t env (.succeed p) w L r w') :
    L = [] ∧ r = .value p ∧ R w w' := by
  generalize hn : Node.succeed p = n at h
  induction h with
  | before hm _ ih =>
    obtain ⟨rfl, rfl, hm'⟩ := ih hn
    exact ⟨rfl, rfl, hR.trans hm hm'⟩
  | after _ _ hm ih =>
    obtain ⟨rfl, rfl, hm'⟩ := ih hn
    exact ⟨rfl, rfl, hR.trans hm' hm⟩
  | succeed =>
    obtain rfl := Node.succeed.inj hn
    exact ⟨rfl, rfl, hR.refl _⟩
  | _ => nomatch hn

/-- What a failure evaluates to. -/
theorem of_fail (hR : Surroundings R) {c : Cause Value} (h : Evaluates R t env (.fail c) w L r w') :
    L = [] ∧ r = .failure c ∧ R w w' := by
  generalize hn : Node.fail c = n at h
  induction h with
  | before hm _ ih =>
    obtain ⟨rfl, rfl, hm'⟩ := ih hn
    exact ⟨rfl, rfl, hR.trans hm hm'⟩
  | after _ _ hm ih =>
    obtain ⟨rfl, rfl, hm'⟩ := ih hn
    exact ⟨rfl, rfl, hR.trans hm' hm⟩
  | fail =>
    obtain rfl := Node.fail.inj hn
    exact ⟨rfl, rfl, hR.refl _⟩
  | _ => nomatch hn

/-- What a lazy success evaluates to: its value at once, or its failure. -/
theorem of_succeedLazy (hR : Surroundings R) {thunk : Action (Except (Cause Value) Payload)}
    (h : Evaluates R t env (.succeedLazy thunk) w L r w') :
    ∃ w₀ w₁, R w w₀ ∧ L = [.thunk thunk] ∧
      ((∃ p, evaluate thunk w₀ = (.ok p, w₁) ∧ r = .value p ∧ w' = w₁ ∧ w₁.isInterrupted t = false) ∨
        ∃ c, evaluate thunk w₀ = (.error c, w₁) ∧ r = .failure c ∧ w₁.isInterrupted t = false ∧ R w₁ w') := by
  generalize hn : Node.succeedLazy thunk = n at h
  induction h with
  | before hm _ ih =>
    obtain ⟨w₀, w₁, hm', hrest⟩ := ih hn
    exact ⟨w₀, w₁, hR.trans hm hm', hrest⟩
  | after hlazy =>
    rw [← hn] at hlazy
    nomatch hlazy
  | lazyValue hv ho =>
    obtain rfl := Node.succeedLazy.inj hn
    exact ⟨_, _, hR.refl _, rfl, Or.inl ⟨_, hv, rfl, rfl, ho⟩⟩
  | lazyFailure hv h =>
    obtain rfl := Node.succeedLazy.inj hn
    obtain ⟨rfl, rfl, hm⟩ := h.of_fail hR
    exact ⟨_, _, hR.refl _, rfl, Or.inr ⟨_, hv, rfl, h.untripped hR, hm⟩⟩
  | _ => nomatch hn

end Evaluates

end Interruptible
