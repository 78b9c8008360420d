import Interruptible.Proofs.Machine.Evaluation
import Interruptible.Proofs.Machine.Sequential

/-!
# What a state of the machine evaluates to

The frames of an interpreter are what is left to evaluate once its node has come to a result: `Unwinds` says what comes of a
result under pending frames, and `Process.Yields` what comes of an interpreter in any of its states. What a state yields after
a turn, it yields before that turn, with the callbacks of the turn called first (`Process.yields_of_turn`).
-/

namespace Interruptible

/-- What pending frames make of a result: the callbacks that are called, in that order, and the exit. -/
inductive Unwinds (R : World → World → Prop) (t : TokenId) :
    List Frame → Environment → Result → World → List Call → Exit Value Payload → World → Prop where
  | done {env : Environment} {r : Result} {w w' : World} (hm : R w w') : Unwinds R t [] env r w [] r.exit w'
  | applyValue {k : Payload → Action Node} {fs : List Frame} {env : Environment} {p : Payload} {n : Node} {r : Result}
      {w w₁ w₂ w₃ w' : World} {L₁ L₂ : List Call} {x : Exit Value Payload} (hm : R w w₁)
      (hg : guarded (k p) w₁ = (n, w₂)) (h₁ : Evaluates R t env n w₂ L₁ r w₃) (h₂ : Unwinds R t fs env r w₃ L₂ x w') :
    Unwinds R t (.apply k :: fs) env (.value p) w (.apply k p :: (L₁ ++ L₂)) x w'
  | applyPass {k : Payload → Action Node} {fs : List Frame} {env : Environment} {r : Result} {w w' : World}
      {L : List Call} {x : Exit Value Payload} (hr : r.isValue = false) (h : Unwinds R t fs env r w L x w') :
    Unwinds R t (.apply k :: fs) env r w L x w'
  | foldValue {recover : Cause Value → Action Node} {k : Payload → Action Node} {fs : List Frame} {env : Environment}
      {p : Payload} {n : Node} {r : Result} {w w₁ w₂ w₃ w' : World} {L₁ L₂ : List Call} {x : Exit Value Payload}
      (hm : R w w₁) (hg : guarded (k p) w₁ = (n, w₂)) (h₁ : Evaluates R t env n w₂ L₁ r w₃)
      (h₂ : Unwinds R t fs env r w₃ L₂ x w') :
    Unwinds R t (.fold recover k :: fs) env (.value p) w (.apply k p :: (L₁ ++ L₂)) x w'
  | foldFailure {recover : Cause Value → Action Node} {k : Payload → Action Node} {fs : List Frame} {env : Environment}
      {c : Cause Value} {n : Node} {r : Result} {w w₁ w₂ w₃ w' : World} {L₁ L₂ : List Call} {x : Exit Value Payload}
      (hm : R w w₁) (hg : guarded (recover c) w₁ = (n, w₂)) (h₁ : Evaluates R t env n w₂ L₁ r w₃)
      (h₂ : Unwinds R t fs env r w₃ L₂ x w') :
    Unwinds R t (.fold recover k :: fs) env (.failure c) w (.recover recover c :: (L₁ ++ L₂)) x w'
  | foldInterrupted {recover : Cause Value → Action Node} {k : Payload → Action Node} {fs : List Frame}
      {env : Environment} {suppressed : Cause Value} {w w' : World} {L : List Call} {x : Exit Value Payload}
      (h : Unwinds R t fs env (.interrupted suppressed) w L x w') :
    Unwinds R t (.fold recover k :: fs) env (.interrupted suppressed) w L x w'
  | finalize {finalizer : Node} {fs : List Frame} {env : Environment} {r rf : Result} {w w₁ w₂ w₃ w' : World}
      {L₁ L₂ : List Call} {x : Exit Value Payload} (hm : R w w₁)
      (h₁ : Evaluates R w₁.newToken.1 env finalizer w₁.newToken.2 L₁ rf w₂) (hm' : R w₂ w₃)
      (ho : r.isValue = true → rf.isValue = false → w₃.isInterrupted t = false)
      (h₂ : Unwinds R t fs env (r.finalized rf.exit) w₃ L₂ x w') :
    Unwinds R t (.finalize finalizer :: fs) env r w (L₁ ++ L₂) x w'
  | restore {fs : List Frame} {env env' : Environment} {r : Result} {w w' : World} {L : List Call}
      {x : Exit Value Payload} (h : Unwinds R t fs env' r w L x w') : Unwinds R t (.restore env' :: fs) env r w L x w'

/-- The result that frames are popped with. -/
def Interpreter.result (m : Interpreter) : Outcome → Result
  | .value p => .value p
  | .failure c => .failure c
  | .interruption => .interrupted m.suppressed

/-- What an interpreter evaluates to from one of its states on. -/
inductive Process.Yields (R : World → World → Prop) :
    Process → World → List Call → Exit Value Payload → World → Prop where
  | next {m : Interpreter} {n : Node} {w w₁ w' : World} {L₁ L₂ : List Call} {r : Result} {x : Exit Value Payload}
      (h₁ : Evaluates R m.token m.env n w L₁ r w₁) (h₂ : Unwinds R m.token m.frames.frames m.env r w₁ L₂ x w') :
    Yields R (.next m n) w (L₁ ++ L₂) x w'
  | counted {m : Interpreter} {n : Node} {w w₁ w' : World} {L₁ L₂ : List Call} {r : Result} {x : Exit Value Payload}
      (h₁ : Evaluates R m.token m.env n w L₁ r w₁) (h₂ : Unwinds R m.token m.frames.frames m.env r w₁ L₂ x w') :
    Yields R (.counted m n) w (L₁ ++ L₂) x w'
  | popping {m : Interpreter} {o : Outcome} {w w' : World} {L : List Call} {x : Exit Value Payload}
      (h : Unwinds R m.token m.frames.frames m.env (m.result o) w L x w') : Yields R (.popping m o) w L x w'
  | finalizing {m : Interpreter} {o : Outcome} {child : Process} {e x : Exit Value Payload} {w w₁ w' : World}
      {L₁ L₂ : List Call} (h₁ : Yields R child w L₁ e w₁)
      (ho : (m.result o).isValue = true → e.isFailure = true → w₁.isInterrupted m.token = false)
      (h₂ : Unwinds R m.token m.frames.frames m.env ((m.result o).finalized e) w₁ L₂ x w') :
    Yields R (.finalizing m o child) w (L₁ ++ L₂) x w'
  | awaiting {m : Interpreter} {a : Awaited} {n : Node} {r : Result} {w w₁ w₂ w' : World} {L₁ L₂ L₃ : List Call}
      {x : Exit Value Payload} (ha : Awaits R m.token a w L₁ n w₁) (h₁ : Evaluates R m.token m.env n w₁ L₂ r w₂)
      (h₂ : Unwinds R m.token m.frames.frames m.env r w₂ L₃ x w') :
    Yields R (.awaiting m a) w (L₁ ++ (L₂ ++ L₃)) x w'
  | settled {e : Exit Value Payload} {w w' : World} (hm : R w w') : Yields R (.settled e) w [] e w'

variable {R : World → World → Prop}

/-- Others may change the world before frames are popped. -/
theorem Unwinds.before (hR : Surroundings R) {t : TokenId} {fs : List Frame} {env : Environment} {r : Result}
    {v w w' : World} {L : List Call} {x : Exit Value Payload} (hm : R v w) (h : Unwinds R t fs env r w L x w') :
    Unwinds R t fs env r v L x w' := by
  induction h with
  | done hm' => exact .done (hR.trans hm hm')
  | applyValue hm' hg h₁ h₂ => exact .applyValue (hR.trans hm hm') hg h₁ h₂
  | applyPass hr _ ih => exact .applyPass hr (ih hm)
  | foldValue hm' hg h₁ h₂ => exact .foldValue (hR.trans hm hm') hg h₁ h₂
  | foldFailure hm' hg h₁ h₂ => exact .foldFailure (hR.trans hm hm') hg h₁ h₂
  | foldInterrupted _ ih => exact .foldInterrupted (ih hm)
  | finalize hm' h₁ hm'' ho h₂ => exact .finalize (hR.trans hm hm') h₁ hm'' ho h₂
  | restore _ ih => exact .restore (ih hm)

/-- Others may change the world between two turns. -/
theorem Process.Yields.before (hR : Surroundings R) {p : Process} {v w w' : World} {L : List Call}
    {x : Exit Value Payload} (hm : R v w) (h : p.Yields R w L x w') : p.Yields R v L x w' := by
  induction h with
  | next h₁ h₂ => exact .next (.before hm h₁) h₂
  | counted h₁ h₂ => exact .counted (.before hm h₁) h₂
  | popping h => exact .popping (h.before hR hm)
  | finalizing _ ho h₂ ih => exact .finalizing (ih hm) ho h₂
  | awaiting ha h₁ h₂ => exact .awaiting (.before hm ha) h₁ h₂
  | settled hm' => exact .settled (hR.trans hm hm')

theorem Process.Yields.cast {p : Process} {w w' : World} {L L' : List Call} {x : Exit Value Payload}
    (h : p.Yields R w L x w') (hL : L = L') : p.Yields R w L' x w' := hL ▸ h

/-! ## Before a node is taken -/

section

variable {m : Interpreter} {w w' : World} {L : List Call} {x : Exit Value Payload}

/-- What is yielded by a chain whose inner effect is neither a success nor a lazy one. -/
theorem yields_chain {inner : Node} {k : Payload → Action Node} (hlazy : inner.isLazy = false)
    (h : (Process.next (m.push (.apply k)) inner).Yields R w L x w') :
    (Process.counted m (.chain inner k)).Yields R w L x w' := by
  cases h with
  | next h₁ h₂ =>
    cases h₂ with
    | applyValue hm hg h₃ h₄ =>
      exact (Process.Yields.counted (m := m) (.chainValue (.after hlazy h₁ hm) hg h₃) h₄).cast (by simp)
    | applyPass hr h₂ => exact .counted (.chainPass h₁ hr) h₂

/-- What is yielded by a match. -/
theorem yields_match {inner : Node} {recover : Cause Value → Action Node} {k : Payload → Action Node}
    (h : (Process.next (m.push (.fold recover k)) inner).Yields R w L x w') :
    (Process.counted m (.matchCause inner recover k)).Yields R w L x w' := by
  cases h with
  | next h₁ h₂ =>
    cases h₂ with
    | foldValue hm hg h₃ h₄ => exact (Process.Yields.counted (m := m) (.matchValue h₁ hm hg h₃) h₄).cast (by simp)
    | foldFailure hm hg h₃ h₄ => exact (Process.Yields.counted (m := m) (.matchFailure h₁ hm hg h₃) h₄).cast (by simp)
    | foldInterrupted h₂ => exact .counted (.matchInterrupted h₁) h₂

/-- What is yielded by an effect with a finalizer. -/
theorem yields_ensuring {inner finalizer : Node} (h : (Process.next (m.push (.finalize finalizer)) inner).Yields R w L x w') :
    (Process.counted m (.ensuring inner finalizer)).Yields R w L x w' := by
  cases h with
  | next h₁ h₂ =>
    cases h₂ with
    | finalize hm hf hm' ho h₂ => exact (Process.Yields.counted (m := m) (.ensuring h₁ hm hf hm' ho) h₂).cast (by simp)

/-- What is yielded by an effect in another environment. -/
theorem yields_give {inner : Node} {env : Environment}
    (h : (Process.next { m.push (.restore m.env) with env } inner).Yields R w L x w') :
    (Process.counted m (.give inner env)).Yields R w L x w' := by
  cases h with
  | next h₁ h₂ =>
    cases h₂ with
    | restore h₂ => exact .counted (.give h₁) h₂

/-- What is yielded by a lazy success, once it has succeeded. -/
theorem yields_lazy (hR : Surroundings R) {thunk : Action (Except (Cause Value) Payload)} {v : World}
    {result : Except (Cause Value) Payload} (hv : evaluate thunk v = (result, w))
    (h : (Process.next m (.leaf result)).Yields R w L x w') :
    (Process.counted m (.succeedLazy thunk)).Yields R v (.thunk thunk :: L) x w' := by
  cases h with
  | next h₁ h₂ =>
    cases result with
    | ok p =>
      have ho := h₁.untripped hR
      obtain ⟨rfl, rfl, hm⟩ := h₁.of_succeed hR
      exact .counted (.lazyValue hv ho) (h₂.before hR hm)
    | error c => exact .counted (.lazyFailure hv h₁) h₂

/-- What is yielded by a callback that builds the tree to go on with. -/
theorem yields_goOn {a : Action Node} {v : World} (h : (m.goOn a v).process.Yields R (m.goOn a v).world L x w') :
    ∃ n w₁ L₁ L₂ r w₂, guarded a v = (n, w₁) ∧ Evaluates R m.token m.env n w₁ L₁ r w₂ ∧
      Unwinds R m.token m.frames.frames m.env r w₂ L₂ x w' ∧ L = L₁ ++ L₂ := by
  cases h with
  | next h₁ h₂ => exact ⟨_, _, _, _, _, _, rfl, h₁, h₂, rfl⟩

/-- What is yielded by a host future that is to be awaited. -/
theorem yields_await {factory : OperationId → Action Future} {onReject : Value → Action (Cause Value)}
    (ht : m.token < w.tokens.size) (ho : w.isInterrupted m.token = false)
    (h : (m.await factory onReject w).process.Yields R (m.await factory onReject w).world L x w') :
    (Process.counted m (.liftPromise factory onReject)).Yields R w
      ((Node.liftPromise factory onReject).calls m.env m.token w ++ L) x w' := by
  obtain ⟨stopper, w₁, hs⟩ := World.react_eq_some (w := w.newOperation.2) ht ho (.stop w.newOperation.1)
  simp only [Interpreter.await, hs] at h
  simp only [Node.calls, hs]
  rcases hf : (factory w.newOperation.1).run w₁ with ⟨panic | future, w₂⟩ <;> simp only [hf] at h
  · cases h with
    | next h₁ h₂ => exact (Process.Yields.counted (.promisePanicked ho hs hf h₁) h₂).cast (by simp)
  · cases h with
    | awaiting ha h₁ h₂ => exact (Process.Yields.counted (.promise ho hs hf ha h₁) h₂).cast (by simp)

end

/-- What is yielded after a node has been taken is yielded before, with the callbacks called first. -/
theorem yields_take (hR : Surroundings R) {m : Interpreter} {n : Node} {w w' : World} {L : List Call}
    {x : Exit Value Payload} (hm : m.Plain w) (hs : m.suppressed = .empty) (hn : n.Sequential)
    (ho : w.isInterrupted m.token = false) (h : (m.take n w).process.Yields R (m.take n w).world L x w') :
    (Process.counted m n).Yields R w
      (n.calls m.env m.token (w.record (.step n.kind m.frames.height)) ++ L) x w' := by
  have hrec : R w (w.record (.step n.kind m.frames.height)) := hR.alike (.of_record w _)
  refine Process.Yields.before hR hrec ?_
  have ho' : (w.record (.step n.kind m.frames.height)).isInterrupted m.token = false := ho
  cases hn with
  | succeed p =>
    cases h with
    | popping h => exact .counted (.succeed ho') h
  | succeedLazy thunk =>
    rcases hv : evaluate thunk (w.record (.step (Node.succeedLazy thunk).kind m.frames.height)) with ⟨c | p, w₁⟩ <;>
      simp only [Interpreter.take, hv] at h
    · exact yields_lazy hR hv h
    · exact yields_lazy hR hv h
  | fail c =>
    cases h with
    | popping h => exact .counted (.fail ho') h
  | interrupt =>
    cases h with
    | popping h =>
      rw [Interpreter.result, hs] at h
      refine .counted (.interrupt ho') (h.before hR (hR.alike ?_))
      exact World.interrupt_alike m.token rfl
  | asks _ =>
    obtain ⟨n, w₁, L₁, L₂, r, w₂, hg, h₁, h₂, rfl⟩ := yields_goOn h
    exact (Process.Yields.counted (.asks hg h₁) h₂).cast (by simp [Node.calls])
  | give _ env => exact yields_give h
  | defer _ =>
    obtain ⟨n, w₁, L₁, L₂, r, w₂, hg, h₁, h₂, rfl⟩ := yields_goOn h
    exact (Process.Yields.counted (.defer hg h₁) h₂).cast (by simp [Node.calls])
  | liftPromise factory onReject => exact yields_await hm.token ho' h
  | @chain inner k _ _ =>
    cases inner with
    | succeed p =>
      obtain ⟨n, w₁, L₁, L₂, r, w₂, hg, h₁, h₂, rfl⟩ := yields_goOn h
      exact (Process.Yields.counted (.chainValue (.succeed ho') hg h₁) h₂).cast (by simp [Node.calls])
    | succeedLazy thunk =>
      rcases hv : evaluate thunk (w.record (.step (Node.chain (.succeedLazy thunk) k).kind m.frames.height)) with
        ⟨c | p, w₁⟩ <;> simp only [Interpreter.take, hv] at h <;> simp only [Node.calls, hv]
      · cases h with
        | next h₁ h₂ =>
          obtain ⟨rfl, rfl, _⟩ := h₁.of_fail hR
          exact .counted (.chainPass (.lazyFailure hv h₁) rfl) h₂
      · obtain ⟨n, w₂, L₁, L₂, r, w₃, hg, h₁, h₂, rfl⟩ := yields_goOn h
        have hl := (guarded_later (k p) w₁).answer hg
        exact (Process.Yields.counted (.chainValue (.lazyValue hv (hl.untripped (h₁.untripped hR))) hg h₁) h₂).cast (by simp)
    | _ => exact yields_chain rfl h
  | matchCause _ _ _ => exact yields_match h
  | ensuring _ _ => exact yields_ensuring h

/-! ## Before any other turn -/

section

variable {m : Interpreter} {o : Outcome} {w w' : World} {L : List Call} {x : Exit Value Payload}

theorem Interpreter.exit_result (m : Interpreter) (o : Outcome) : (m.result o).exit = m.exit o := by cases o <;> rfl

/-- What is yielded after a frame has been popped is yielded before. -/
theorem yields_pop (hR : Surroundings R) (h : (m.pop o w).process.Yields R (m.pop o w).world L x w') :
    (Process.popping m o).Yields R w ((Process.popping m o).calls w ++ L) x w' := by
  cases hf : m.frames.frames with
  | nil =>
    rw [Interpreter.pop_nil hf] at h
    simp only [Process.calls, hf]
    cases h with
    | settled hm =>
      refine .popping ?_
      rw [hf, ← m.exit_result o]
      exact .done hm
  | cons f fs =>
    obtain ⟨s', hpop, rfl⟩ := FrameStack.pop?_eq_some hf
    unfold Interpreter.pop at h
    rw [hpop] at h
    simp only [Process.calls, hf, List.head?_cons, Option.map_some, Option.getD_some]
    refine .popping ?_
    rw [hf]
    cases f with
    | finalize n =>
      cases h with
      | finalizing h₁ ho h₂ =>
        unfold Process.start at h₁
        cases h₁ with
        | @next _ _ _ _ _ _ _ rf _ h₁ h₃ =>
          cases h₃ with
          | done hm =>
            simp only [Frame.calls, List.append_nil, List.nil_append]
            refine .finalize (hR.refl w) h₁ hm (fun hv hrf => ho hv ?_) h₂
            rw [Result.isFailure_exit, hrf]
            rfl
    | restore env =>
      cases h with
      | popping h => exact .restore h
    | apply k =>
      cases o with
      | value p =>
        obtain ⟨n, w₁, L₁, L₂, r, w₂, hg, h₁, h₂, rfl⟩ := yields_goOn h
        simp only [Frame.calls, List.singleton_append]
        exact .applyValue (hR.refl w) hg h₁ h₂
      | failure c =>
        cases h with
        | popping h => exact .applyPass rfl h
      | interruption =>
        cases h with
        | popping h => exact .applyPass rfl h
    | fold recover k =>
      cases o with
      | value p =>
        obtain ⟨n, w₁, L₁, L₂, r, w₂, hg, h₁, h₂, rfl⟩ := yields_goOn h
        simp only [Frame.calls, List.singleton_append]
        exact .foldValue (hR.refl w) hg h₁ h₂
      | failure c =>
        obtain ⟨n, w₁, L₁, L₂, r, w₂, hg, h₁, h₂, rfl⟩ := yields_goOn h
        simp only [Frame.calls, List.singleton_append]
        exact .foldFailure (hR.refl w) hg h₁ h₂
      | interruption =>
        cases h with
        | popping h => exact .foldInterrupted h

/-- What is yielded after a finalizer has ended is yielded before. -/
theorem yields_finalized (hR : Surroundings R) {e : Exit Value Payload}
    (h : (m.finalized o e w).process.Yields R (m.finalized o e w).world L x w') :
    (Process.finalizing m o (.settled e)).Yields R w L x w' := by
  have hnow : (Process.settled e).Yields R w [] e w := .settled (hR.refl w)
  cases e with
  | success p =>
    cases h with
    | popping h =>
      refine .finalizing hnow (fun _ he => nomatch he) ?_
      cases o <;> exact h
  | failure fc =>
    have hrec : R w (w.record .finalizerFailed) := hR.alike (.of_record w _)
    cases o with
    | value p =>
      cases h with
      | next h₁ h₂ =>
        have ho := hR.untripped hrec (h₁.untripped hR)
        obtain ⟨rfl, rfl, hm⟩ := h₁.of_fail hR
        exact .finalizing hnow (fun _ _ => ho) (h₂.before hR (hR.trans hrec hm))
    | failure c =>
      cases h with
      | popping h => exact .finalizing hnow (fun hv _ => nomatch hv) (h.before hR hrec)
    | interruption =>
      cases h with
      | popping h => exact .finalizing hnow (fun hv _ => nomatch hv) (h.before hR hrec)

/-- What is yielded after an awaited future has been polled is yielded before. -/
theorem yields_pollAwaited {a : Awaited} (ho : w.isInterrupted m.token = false) (hw : w.Watches m.token a.op)
    (h : (m.pollAwaited a w).process.Yields R (m.pollAwaited a w).world L x w') :
    (Process.awaiting m a).Yields R w (a.calls w ++ L) x w' := by
  have hf : w.isFired a.op = false := by
    cases hf : w.isFired a.op with
    | false => rfl
    | true => exact (hw.quiet hf).symm.trans ho
  rcases hp : a.future.poll a.op (w.attend a.op) with ⟨rest | (e | p) | p, w₁⟩ <;>
    simp only [Interpreter.pollAwaited, hf, hp, Bool.false_eq_true, if_false] at h <;>
    simp only [Awaited.calls, hf, hp, Bool.false_eq_true, if_false, List.nil_append]
  · cases h with
    | awaiting ha h₁ h₂ => exact .awaiting (.pending ho hp ha) h₁ h₂
  · obtain ⟨n, w₂, L₁, L₂, r, w₃, hg, h₁, h₂, rfl⟩ := yields_goOn h
    exact .awaiting (.rejected ho hp hg) h₁ h₂
  · cases h with
    | next h₁ h₂ => exact .awaiting (.resolved ho hp) h₁ h₂
  · cases h with
    | next h₁ h₂ => exact .awaiting (.panicked ho hp) h₁ h₂

end

/-- What a state yields after a turn, it yields before that turn, with the callbacks of the turn called first. -/
theorem Process.yields_of_turn (hR : Surroundings R) {p : Process} {w w' : World} {L : List Call}
    {x : Exit Value Payload} (hp : p.Plain w) (hu : p.Undisturbed w) (hns : p.exit? = none)
    (h : (p.turn w).process.Yields R (p.turn w).world L x w') : p.Yields R w (p.calls w ++ L) x w' := by
  match p, hp with
  | .next m n, _ =>
    obtain ⟨hturn, halike⟩ := turn_next m n w
    rw [hturn] at h
    cases h with
    | counted h₁ h₂ =>
      simp only [Process.calls, List.nil_append]
      exact .next (.before (hR.alike halike) h₁) h₂
  | .counted m n, ⟨hm, hs, hn⟩ =>
    rw [turn_counted hu] at h
    have := yields_take hR hm hs hn hu h
    rwa [Process.calls, if_neg (Bool.eq_false_iff.mp hu)]
  | .popping m o, _ => exact yields_pop hR h
  | .finalizing m o child, ⟨_, _, hc⟩ =>
    cases hx : child.exit? with
    | none =>
      rw [turn_finalizing m o hx] at h
      cases h with
      | finalizing h₁ ho h₂ =>
        have := yields_of_turn hR hc hu hx h₁
        exact (Yields.finalizing this ho h₂).cast (by simp [Process.calls])
    | some e =>
      obtain rfl := exit?_eq_some hx
      exact yields_finalized hR h
  | .awaiting m a, ⟨_, _, hw⟩ => exact yields_pollAwaited hu hw h
  | .settled e, _ => nomatch hns

/-- A run that nobody disturbs, up to the end, is what its first state yields. -/
theorem Process.Run.yields (hR : Surroundings R) {p : Process} {w w' : World} {h : History} {x : Exit Value Payload}
    (run : Run R p w h (.settled x) w') (hp : p.Plain w) (hw : w.Sound) (hu : h.Undisturbed) :
    p.Yields R w h.calls x w' := by
  generalize hq : Process.settled x = q at run
  induction run with
  | done p w =>
    subst hq
    exact .settled (hR.refl w)
  | @turn p q w v h hns _ ih =>
    have hu' : h.Undisturbed := fun y hy => hu y (List.mem_cons_of_mem _ hy)
    have := ih (turn_plain hp hw) ((turn_later p w).sound hw) hu' hq
    exact yields_of_turn hR hp (hu (p, w) List.mem_cons_self) hns this
  | moved hm _ ih => exact (ih (hp.later (hR.later hm)) ((hR.later hm).sound hw) hu hq).before hR hm

end Interruptible
