import Interruptible.Proofs.Machine.Evaluation
import Interruptible.Proofs.Machine.Frames

/-!
# The machine carries out what a tree evaluates to

Whatever a tree evaluates to, there is a run of the machine, under any frames, that calls the same callbacks in the same order,
that nobody disturbs, and that ends with popping these frames with that result (`Evaluates.comes`).
-/

namespace Interruptible

/-- There is a run that nobody disturbs and that calls these callbacks. -/
def Process.Leads (R : World → World → Prop) (p : Process) (w : World) (L : List Call) (q : Process) (w' : World) : Prop :=
  ∃ h, Run R p w h q w' ∧ h.Undisturbed ∧ h.calls = L

namespace Process.Leads

variable {R : World → World → Prop} {p q p' : Process} {w v w' : World} {L L' : List Call}

theorem refl (p : Process) (w : World) : Leads R p w [] p w := by
  refine ⟨[], .done p w, fun x hx => ?_, rfl⟩
  nomatch hx

theorem trans (h : Leads R p w L q v) (h' : Leads R q v L' p' w') : Leads R p w (L ++ L') p' w' := by
  obtain ⟨history, run, hu, rfl⟩ := h
  obtain ⟨history', run', hu', rfl⟩ := h'
  refine ⟨history ++ history', run.trans run', fun x hx => ?_, by simp [History.calls]⟩
  rcases List.mem_append.mp hx with hx | hx
  · exact hu x hx
  · exact hu' x hx

/-- Others change the world first. -/
theorem before (hm : R w v) (h : Leads R p v L q w') : Leads R p w L q w' := by
  obtain ⟨history, run, hu, hL⟩ := h
  exact ⟨history, .moved hm run, hu, hL⟩

/-- Others change the world afterwards. -/
theorem after (h : Leads R p w L q v) (hm : R v w') : Leads R p w L q w' := by
  obtain ⟨history, run, hu, hL⟩ := h
  exact ⟨history, run.moved_after hm, hu, hL⟩

/-- A turn first. -/
theorem turn (hp : p.exit? = none) (hu : p.Undisturbed w) (h : Leads R (p.turn w).process (p.turn w).world L q w') :
    Leads R p w (p.calls w ++ L) q w' := by
  have hone : Leads R p w (p.calls w) (p.turn w).process (p.turn w).world := by
    refine ⟨[(p, w)], .one w hp, fun x hx => ?_, by simp [History.calls]⟩
    obtain rfl := List.mem_singleton.mp hx
    exact hu
  exact hone.trans h

/-- The callbacks of a run may be written down in another way. -/
theorem cast (h : Leads R p w L q w') (hL : L = L') : Leads R p w L' q w' := hL ▸ h

/-- What a finalizer does, it does while an interpreter waits for it. -/
theorem finalizing (h : Leads R p w L q w') (m : Interpreter) (o : Outcome) :
    Leads R (.finalizing m o p) w L (.finalizing m o q) w' := by
  obtain ⟨history, run, hu, rfl⟩ := h
  induction run with
  | done p w => exact refl _ w
  | @turn p q w v h hp _ ih =>
    have hrest : h.Undisturbed := fun x hx => hu x (List.mem_cons_of_mem _ hx)
    have hfirst : (Process.finalizing m o p).Undisturbed w := hu (p, w) List.mem_cons_self
    refine Leads.turn rfl hfirst ?_
    rw [turn_finalizing m o hp]
    exact ih hrest
  | moved hm _ ih => exact before hm (ih hu)

end Process.Leads

/-! ## Worlds that are alike -/

/-- Code that is called back in worlds that are alike gives the same node, in worlds that are alike. -/
theorem guarded_alike {w v : World} (h : w.Alike v) (a : Action Node) :
    (guarded a w).1 = (guarded a v).1 ∧ (guarded a w).2.Alike (guarded a v).2 := by
  have ha := a.run_alike h
  unfold guarded
  rcases hw : a.run w with ⟨p | n, w'⟩ <;> rcases hv : a.run v with ⟨p' | n', v'⟩ <;> rw [hw, hv] at ha
  · obtain ⟨hp, halike⟩ := ha
    obtain rfl := Except.error.inj hp
    exact ⟨rfl, halike⟩
  · nomatch ha.1
  · nomatch ha.1
  · obtain ⟨hn, halike⟩ := ha
    obtain rfl := Except.ok.inj hn
    exact ⟨rfl, halike⟩

/-- Thunks that are evaluated in worlds that are alike come to the same, in worlds that are alike. -/
theorem evaluate_alike {w v : World} (h : w.Alike v) (thunk : Action (Except (Cause Value) Payload)) :
    (evaluate thunk w).1 = (evaluate thunk v).1 ∧ (evaluate thunk w).2.Alike (evaluate thunk v).2 := by
  have ha := thunk.run_alike h
  unfold evaluate
  rcases hw : thunk.run w with ⟨p | n, w'⟩ <;> rcases hv : thunk.run v with ⟨p' | n', v'⟩ <;> rw [hw, hv] at ha
  · obtain ⟨hp, halike⟩ := ha
    obtain rfl := Except.error.inj hp
    exact ⟨rfl, halike⟩
  · nomatch ha.1
  · nomatch ha.1
  · obtain ⟨hn, halike⟩ := ha
    obtain rfl := Except.ok.inj hn
    exact ⟨rfl, halike⟩

/-- An answer that is given in a world is given in one that is alike. -/
theorem World.Alike.answer {α : Type} {x y : α × World} (h : x.1 = y.1 ∧ x.2.Alike y.2) {a : α} {w : World}
    (hx : x = (a, w)) : ∃ v, y = (a, v) ∧ w.Alike v := by
  subst hx
  exact ⟨y.2, Prod.ext h.1.symm rfl, h.2⟩

/-! ## Runs of a single interpreter -/

/-- What frames are popped with after a result. -/
def Result.outcome : Result → Outcome
  | .value p => .value p
  | .failure c => .failure c
  | .interrupted _ => .interruption

/-- The failures of finalizers that an interpreter carries along after a result. -/
def Result.suppressed : Result → Cause Value
  | .interrupted suppressed => suppressed
  | _ => .empty

section

variable {R : World → World → Prop} {m : Interpreter} {n : Node} {w w' : World} {L : List Call} {q : Process}

/-- A node is counted and taken. -/
theorem Process.Leads.take (hR : Surroundings R) (ho : w.isInterrupted m.token = false)
    (h : Leads R (m.tick.take n w).process (m.tick.take n w).world L q w') :
    Leads R (.next m n) w (n.calls m.env m.token (w.record (.step n.kind m.frames.height)) ++ L) q w' := by
  have hcounted : Leads R (.counted m.tick n) w
      (n.calls m.env m.token (w.record (.step n.kind m.frames.height)) ++ L) q w' := by
    have ho' : w.isInterrupted m.tick.token = false := ho
    rw [← turn_counted ho' n] at h
    refine (Leads.turn (p := .counted m.tick n) rfl ho' h).cast ?_
    simp only [Process.calls, ho', Bool.false_eq_true, if_false]
    rfl
  obtain ⟨hturn, halike⟩ := turn_next m n w
  have hnext := before (hR.alike halike.symm) hcounted
  rw [← hturn] at hnext
  exact Leads.turn rfl trivial hnext

/-- A callback goes on as it does in a world that is alike. -/
theorem Process.Leads.goOn (hR : Surroundings R) {a : Action Node} {v w₁ : World} (hv : w.Alike v)
    (hg : guarded a w = (n, w₁)) (h : Leads R (.next m n) w₁ L q w') :
    Leads R (m.goOn a v).process (m.goOn a v).world L q w' := by
  obtain ⟨v₁, hg', halike⟩ := World.Alike.answer (guarded_alike hv a) hg
  simp only [Interpreter.goOn, hg']
  exact before (hR.alike halike.symm) h

/-- Popping a frame that has been pushed. -/
theorem Interpreter.pop_push (m : Interpreter) (f : Frame) (o : Outcome) (w : World) :
    (m.push f).pop o w =
      match f, o with
      | .finalize n, o =>
        { process := .finalizing m o (.start n m.env w.newToken.1 m.interval), world := w.newToken.2 }
      | .restore env, o => { process := .popping { m with env } o, world := w }
      | .apply k, .value p => m.goOn (k p) w
      | .fold _ k, .value p => m.goOn (k p) w
      | .fold recover _, .failure c => m.goOn (recover c) w
      | .apply _, o => { process := .popping m o, world := w }
      | .fold _ _, o => { process := .popping m o, world := w } := by
  have hpop : (m.push f).frames.pop? = some (f, m.frames) := FrameStack.pop?_push m.frames f
  unfold Interpreter.pop
  rw [hpop]
  cases f <;> cases o <;> rfl

/-- A run that ends with popping a frame goes on with what popping it leads to. -/
theorem Process.Leads.pop {f : Frame} {o : Outcome} {p : Process} {v : World} {L₁ L₂ : List Call}
    (h : Leads R p v L₁ (.popping (m.push f) o) w)
    (h' : Leads R ((m.push f).pop o w).process ((m.push f).pop o w).world L₂ q w') :
    Leads R p v (L₁ ++ (f.calls o ++ L₂)) q w' := by
  refine h.trans ((Leads.turn (p := .popping (m.push f) o) rfl trivial h').cast ?_)
  simp [Process.calls, Interpreter.push]

end

/-- An interpreter comes to a result and pops its frames with it. -/
def Interpreter.Comes (R : World → World → Prop) (m : Interpreter) (n : Node) (w : World) (L : List Call) (r : Result)
    (w' : World) : Prop :=
  ∃ i, Process.Leads R (.next m n) w L (.popping { m with instructions := i, suppressed := r.suppressed } r.outcome) w'

namespace Interpreter.Comes

variable {R : World → World → Prop} {m : Interpreter} {n n' : Node} {w w₁ w₂ w' : World} {L L₁ L₂ : List Call} {r : Result}

/-- A leaf, which pops the frames at once. -/
theorem leaf (hR : Surroundings R) (hs : m.suppressed = r.suppressed) (ho : w.isInterrupted m.token = false)
    (htake : (m.tick.take n w).process = .popping m.tick r.outcome) (hw : w'.Alike (m.tick.take n w).world) :
    m.Comes R n w (n.calls m.env m.token (w.record (.step n.kind m.frames.height))) r w' := by
  refine ⟨m.instructions + 1, (Process.Leads.take hR ho ?_).cast (List.append_nil _)⟩
  rw [htake, ← hs]
  exact (Process.Leads.refl _ _).after (hR.alike hw.symm)

/-- An interpreter that takes a success comes to its value. -/
theorem succeed (hR : Surroundings R) (hs : m.suppressed = .empty) (ho : w.isInterrupted m.token = false) (p : Payload) :
    m.Comes R (.succeed p) w [] (.value p) w :=
  leaf (n := .succeed p) hR hs ho rfl rfl

/-- An interpreter that takes a failure comes to its cause. -/
theorem fail (hR : Surroundings R) (hs : m.suppressed = .empty) (ho : w.isInterrupted m.token = false) (c : Cause Value) :
    m.Comes R (.fail c) w [] (.failure c) w :=
  leaf (n := .fail c) hR hs ho rfl rfl

/-- An interpreter that interrupts itself trips its token and comes to interruption. -/
theorem interrupt (hR : Surroundings R) (hs : m.suppressed = .empty) (ho : w.isInterrupted m.token = false) :
    m.Comes R .interrupt w [] (.interrupted .empty) (w.interrupt m.token) :=
  leaf (n := .interrupt) hR hs ho rfl (World.interrupt_alike m.token rfl)

/-- Others change the world first. -/
theorem before (hm : R w w₁) (h : m.Comes R n w₁ L r w') : m.Comes R n w L r w' := by
  obtain ⟨i, h⟩ := h
  exact ⟨i, h.before hm⟩

/-- Others change the world afterwards. -/
theorem after (h : m.Comes R n w L r w₁) (hm : R w₁ w') : m.Comes R n w L r w' := by
  obtain ⟨i, h⟩ := h
  exact ⟨i, h.after hm⟩

/-- A node that is taken and leads to another one. -/
theorem take (hR : Surroundings R) (ho : w.isInterrupted m.token = false)
    (hlead : ∀ {L : List Call} {q : Process} {v : World}, Process.Leads R (.next m.tick n') w₁ L q v →
      Process.Leads R (m.tick.take n w).process (m.tick.take n w).world L q v)
    (h : m.tick.Comes R n' w₁ L r w') :
    m.Comes R n w (n.calls m.env m.token (w.record (.step n.kind m.frames.height)) ++ L) r w' := by
  obtain ⟨i, h⟩ := h
  exact ⟨i, Process.Leads.take hR ho (hlead h)⟩

/-- A lazy success. -/
theorem lazy (hR : Surroundings R) {thunk : Action (Except (Cause Value) Payload)} {result : Except (Cause Value) Payload}
    (hv : evaluate thunk w = (result, w₁)) (ho : w.isInterrupted m.token = false)
    (h : m.tick.Comes R (.leaf result) w₁ L r w') :
    m.Comes R (.succeedLazy thunk) w (.thunk thunk :: L) r w' := by
  refine take (n := .succeedLazy thunk) hR ho (fun {L q v} h => ?_) h
  obtain ⟨v₁, hv', halike⟩ := World.Alike.answer
    (evaluate_alike (World.Alike.of_record w (.step (Node.succeedLazy thunk).kind m.frames.height)) thunk) hv
  have hstart := h.before (hR.alike halike.symm)
  have hturn : m.tick.take (.succeedLazy thunk) w =
      { process := .next m.tick (.leaf result), world := v₁ } := by
    have hv'' : evaluate thunk (w.record (.step (Node.succeedLazy thunk).kind m.tick.frames.height)) = (result, v₁) := hv'
    simp only [Interpreter.take, hv'']
    cases result <;> rfl
  rw [hturn]
  exact hstart

/-- A node that lets a callback build the next one. -/
theorem goOn (hR : Surroundings R) {a : Action Node} (hg : guarded a w = (n', w₁)) (ho : w.isInterrupted m.token = false)
    (htake : m.tick.take n w = m.tick.goOn a (w.record (.step n.kind m.frames.height))) (h : m.tick.Comes R n' w₁ L r w') :
    m.Comes R n w (n.calls m.env m.token (w.record (.step n.kind m.frames.height)) ++ L) r w' := by
  refine take hR ho (fun {L q v} h => ?_) h
  rw [htake]
  exact Process.Leads.goOn hR (.of_record w _) hg h

/-- A chain whose inner effect is a lazy success, which hands its value over at once. -/
theorem chainLazy (hR : Surroundings R) {thunk : Action (Except (Cause Value) Payload)} {k : Payload → Action Node}
    {p : Payload} (hv : evaluate thunk w = (.ok p, w₁)) (hg : guarded (k p) w₁ = (n', w₂))
    (ho : w.isInterrupted m.token = false) (h : m.tick.Comes R n' w₂ L r w') :
    m.Comes R (.chain (.succeedLazy thunk) k) w (.thunk thunk :: .apply k p :: L) r w' := by
  obtain ⟨v₁, hv', halike⟩ := World.Alike.answer
    (evaluate_alike (World.Alike.of_record w (.step (Node.chain (.succeedLazy thunk) k).kind m.frames.height)) thunk) hv
  have hcalls : (Node.chain (.succeedLazy thunk) k).calls m.env m.token
      (w.record (.step (Node.chain (.succeedLazy thunk) k).kind m.frames.height)) = [.thunk thunk, .apply k p] := by
    simp only [Node.calls, hv']
  have := take (n := .chain (.succeedLazy thunk) k) hR ho (fun {L q v} h => ?_) h
  · rwa [hcalls] at this
  · have hturn : m.tick.take (.chain (.succeedLazy thunk) k) w = m.tick.goOn (k p) v₁ := by
      have hv'' : evaluate thunk (w.record (.step (Node.chain (.succeedLazy thunk) k).kind m.tick.frames.height)) =
        (.ok p, v₁) := hv'
      simp only [Interpreter.take, hv'']
    rw [hturn]
    exact Process.Leads.goOn hR halike hg h

/-- A chain whose inner effect is a lazy success that fails. -/
theorem chainLazyFailure (hR : Surroundings R) {thunk : Action (Except (Cause Value) Payload)} {k : Payload → Action Node}
    {c : Cause Value} (hv : evaluate thunk w = (.error c, w₁)) (ho : w.isInterrupted m.token = false)
    (h : m.tick.Comes R (.fail c) w₁ L r w') :
    m.Comes R (.chain (.succeedLazy thunk) k) w (.thunk thunk :: L) r w' := by
  obtain ⟨v₁, hv', halike⟩ := World.Alike.answer
    (evaluate_alike (World.Alike.of_record w (.step (Node.chain (.succeedLazy thunk) k).kind m.frames.height)) thunk) hv
  have hcalls : (Node.chain (.succeedLazy thunk) k).calls m.env m.token
      (w.record (.step (Node.chain (.succeedLazy thunk) k).kind m.frames.height)) = [.thunk thunk] := by
    simp only [Node.calls, hv']
  have := take (n := .chain (.succeedLazy thunk) k) hR ho (fun {L q v} h => ?_) h
  · rwa [hcalls] at this
  · have hturn : m.tick.take (.chain (.succeedLazy thunk) k) w = { process := .next m.tick (.fail c), world := v₁ } := by
      have hv'' : evaluate thunk (w.record (.step (Node.chain (.succeedLazy thunk) k).kind m.tick.frames.height)) =
        (.error c, v₁) := hv'
      simp only [Interpreter.take, hv'']
    rw [hturn]
    exact h.before (hR.alike halike.symm)

/-- A node that pushes a frame: its inner effect is evaluated, and then the frame is popped. -/
theorem pushed (hR : Surroundings R) (ho : w.isInterrupted m.token = false) {m' : Interpreter} {f : Frame} {inner : Node}
    {r₁ : Result} (hcalls : n.calls m.env m.token (w.record (.step n.kind m.frames.height)) = [])
    (htake : m.tick.take n w =
      { process := .next (m'.push f) inner, world := w.record (.step n.kind m.frames.height) })
    (h₁ : (m'.push f).Comes R inner w L₁ r₁ w₁) (hm : R w₁ w₂) :
    ∃ i, ∀ {q : Process} {v : World} {L₂ : List Call},
      Process.Leads R (({ m' with instructions := i, suppressed := r₁.suppressed }.push f).pop r₁.outcome w₂).process
        (({ m' with instructions := i, suppressed := r₁.suppressed }.push f).pop r₁.outcome w₂).world L₂ q v →
      Process.Leads R (.next m n) w (L₁ ++ (f.calls r₁.outcome ++ L₂)) q v := by
  obtain ⟨i, h₁⟩ := h₁
  refine ⟨i, fun {q v L₂} h₂ => ?_⟩
  have hinner := (h₁.after hm).pop (m := { m' with instructions := i, suppressed := r₁.suppressed }) h₂
  have hrec := hinner.before (hR.alike (World.Alike.of_record w (.step n.kind m.frames.height)).symm)
  have := Process.Leads.take (n := n) hR ho (by rw [htake]; exact hrec)
  rwa [hcalls] at this

/-- The frame hands the result to a callback. -/
theorem resumed (hR : Surroundings R) (ho : w.isInterrupted m.token = false) {f : Frame} {inner : Node} {r₁ : Result}
    {a : Action Node} {w₃ : World} (hcalls : n.calls m.env m.token (w.record (.step n.kind m.frames.height)) = [])
    (htake : m.tick.take n w =
      { process := .next (m.tick.push f) inner, world := w.record (.step n.kind m.frames.height) })
    (hpop : ∀ m₀ : Interpreter, (m₀.push f).pop r₁.outcome w₂ = m₀.goOn a w₂)
    (h₁ : (m.tick.push f).Comes R inner w L₁ r₁ w₁) (hm : R w₁ w₂) (hg : guarded a w₂ = (n', w₃))
    (h₂ : ∀ i, Interpreter.Comes R { m with instructions := i, suppressed := r₁.suppressed } n' w₃ L₂ r w') :
    m.Comes R n w (L₁ ++ (f.calls r₁.outcome ++ L₂)) r w' := by
  obtain ⟨i, hrun⟩ := pushed hR ho hcalls htake h₁ hm
  obtain ⟨j, h₂⟩ := h₂ i
  refine ⟨j, hrun ?_⟩
  rw [hpop]
  exact Process.Leads.goOn hR (.refl w₂) hg h₂

/-- The frame lets the result pass. -/
theorem passed (hR : Surroundings R) (ho : w.isInterrupted m.token = false) {m' : Interpreter} {f : Frame} {inner : Node}
    (h : (m'.push f).Comes R inner w L r w')
    (hcalls : n.calls m.env m.token (w.record (.step n.kind m.frames.height)) = [])
    (htake : m.tick.take n w =
      { process := .next (m'.push f) inner, world := w.record (.step n.kind m.frames.height) })
    (hpop : ∀ i, ({ m' with instructions := i, suppressed := r.suppressed }.push f).pop r.outcome w' =
      { process := .popping { m with instructions := i, suppressed := r.suppressed } r.outcome, world := w' })
    (hf : f.calls r.outcome = []) : m.Comes R n w L r w' := by
  obtain ⟨i, hrun⟩ := pushed hR ho hcalls htake h (hR.refl w')
  have hlast := hrun (by rw [hpop]; exact Process.Leads.refl _ _)
  exact ⟨i, hlast.cast (by simp [hf])⟩

/-- An interpreter without frames settles with the exit of its result. -/
theorem settles (hf : m.frames.frames = []) (h : m.Comes R n w L r w') :
    Process.Leads R (.next m n) w L (.settled r.exit) w' := by
  obtain ⟨i, h⟩ := h
  have hexit : ({ m with instructions := i, suppressed := r.suppressed } : Interpreter).exit r.outcome = r.exit := by
    cases r <;> rfl
  have hturn : (Process.popping { m with instructions := i, suppressed := r.suppressed } r.outcome).turn w' =
      { process := .settled r.exit, world := w' } := by
    rw [← hexit]
    exact Interpreter.pop_nil (m := { m with instructions := i, suppressed := r.suppressed }) hf r.outcome w'
  have hcalls : (Process.popping { m with instructions := i, suppressed := r.suppressed } r.outcome).calls w' = [] := by
    simp [Process.calls, hf]
  have hlast : Process.Leads R (.popping { m with instructions := i, suppressed := r.suppressed } r.outcome) w' []
      (.settled r.exit) w' := by
    refine (Process.Leads.turn (L := []) (p := .popping { m with instructions := i, suppressed := r.suppressed } r.outcome)
      rfl trivial ?_).cast (by rw [hcalls, List.append_nil])
    rw [hturn]
    exact .refl _ _
  exact (h.trans hlast).cast (List.append_nil _)

/-- After its finalizer has ended an interpreter pops on with what that makes of the result. -/
theorem finalized (hR : Surroundings R) (m : Interpreter) {e : Exit Value Payload} (i : Nat)
    (ho : r.isValue = true → e.isFailure = true → w.isInterrupted m.token = false) :
    ∃ j, Process.Leads R
      (.finalizing { m with instructions := i, suppressed := r.suppressed } r.outcome (.settled e)) w []
      (.popping { m with instructions := j, suppressed := (r.finalized e).suppressed } (r.finalized e).outcome) w := by
  have hrec : R (w.record .finalizerFailed) w := hR.alike (World.Alike.of_record w _).symm
  have hturn : ∀ {o : Outcome} {m' : Interpreter} {q : Process},
      Process.Leads R (m'.finalized o e w).process (m'.finalized o e w).world [] q w →
      Process.Leads R (.finalizing m' o (.settled e)) w [] q w := fun {o m' q} h =>
    Process.Leads.turn (p := .finalizing m' o (.settled e)) rfl trivial h
  cases e with
  | success p => cases r <;> exact ⟨i, hturn (.refl _ w)⟩
  | failure fc =>
    cases r with
    | value p =>
      obtain ⟨j, h⟩ := fail (m := { m with instructions := i, suppressed := .empty }) hR rfl (ho rfl rfl) fc
      exact ⟨j, hturn (h.before hrec)⟩
    | failure c => exact ⟨i, hturn ((Process.Leads.refl _ _).after hrec)⟩
    | interrupted suppressed => exact ⟨i, hturn ((Process.Leads.refl _ _).after hrec)⟩

/-- An effect with a finalizer. -/
theorem ensuring (hR : Surroundings R) (ho : w.isInterrupted m.token = false) {inner finalizer : Node} {rf : Result}
    {w₃ w₄ : World} (h₁ : (m.tick.push (.finalize finalizer)).Comes R inner w L₁ r w₁) (hm : R w₁ w₂)
    (h₂ : Interpreter.Comes R { env := m.env, token := w₂.newToken.1, interval := m.interval } finalizer w₂.newToken.2 L₂ rf w₃)
    (hm' : R w₃ w₄) (ho' : r.isValue = true → rf.isValue = false → w₄.isInterrupted m.token = false) :
    m.Comes R (.ensuring inner finalizer) w (L₁ ++ L₂) (r.finalized rf.exit) w₄ := by
  obtain ⟨i, hrun⟩ := pushed (n := .ensuring inner finalizer) hR ho rfl rfl h₁ hm
  have hchild := ((h₂.settles rfl).after hm').finalizing { m with instructions := i, suppressed := r.suppressed } r.outcome
  obtain ⟨j, hend⟩ := finalized (r := r) (w := w₄) (e := rf.exit) hR m i fun hv he => by
    refine ho' hv ?_
    rw [Result.isFailure_exit] at he
    simpa using he
  have hlast := hrun (by rw [Interpreter.pop_push]; exact hchild.trans hend)
  exact ⟨j, hlast.cast (by simp [Frame.calls])⟩

/-- An awaited future that its token alone can stop leads to the node to go on with. -/
theorem awaited (hR : Surroundings R) {t : TokenId} {a : Awaited} (h : Awaits R t a w L n w') (ht : m.token = t)
    (hw : w.Watches t a.op) : Process.Leads R (.awaiting m a) w L (.next m n) w' := by
  have running : ∀ {op : OperationId} {v : World}, v.Watches t op → v.isInterrupted t = false → v.isFired op = false := by
    intro op v hv ho
    cases hf : v.isFired op with
    | false => rfl
    | true => exact (hv.quiet hf).symm.trans ho
  have hturn : ∀ {a : Awaited} {v v' : World} {K : List Call} {q : Process}, v.isInterrupted t = false →
      Process.Leads R (m.pollAwaited a v).process (m.pollAwaited a v).world K q v' →
      Process.Leads R (.awaiting m a) v (a.calls v ++ K) q v' := by
    intro a v v' K q ho h
    exact Process.Leads.turn rfl (ht ▸ ho : v.isInterrupted m.token = false) h
  induction h with
  | before hm _ ih => exact (ih ((hR.later hm).watches hw)).before hm
  | @pending a w w₁ w₂ L n rest ho hp _ ih =>
    have hl := ((World.attend_later w a.op).trans (a.future.poll_later a.op (w.attend a.op))).answer hp
    refine (hturn (K := L) ho ?_).cast ?_
    · simp only [Interpreter.pollAwaited, running hw ho, hp, Bool.false_eq_true, if_false]
      exact ih (hl.watches hw)
    · simp only [Awaited.calls, running hw ho, hp, Bool.false_eq_true, if_false, List.nil_append]
  | @resolved a w w₁ p ho hp =>
    refine (hturn (K := []) ho ?_).cast ?_
    · simp only [Interpreter.pollAwaited, running hw ho, hp, Bool.false_eq_true, if_false]
      exact .refl _ _
    · simp only [Awaited.calls, running hw ho, hp, Bool.false_eq_true, if_false, List.nil_append]
  | @rejected a w w₁ w₂ x n ho hp hg =>
    refine (hturn (K := []) ho ?_).cast ?_
    · simp only [Interpreter.pollAwaited, running hw ho, hp, Bool.false_eq_true, if_false]
      exact Process.Leads.goOn hR (.refl _) hg (.refl _ _)
    · simp only [Awaited.calls, running hw ho, hp, Bool.false_eq_true, if_false, List.append_nil]
  | @panicked a w w₁ p ho hp =>
    refine (hturn (K := []) ho ?_).cast ?_
    · simp only [Interpreter.pollAwaited, running hw ho, hp, Bool.false_eq_true, if_false]
      exact .refl _ _
    · simp only [Awaited.calls, running hw ho, hp, Bool.false_eq_true, if_false, List.nil_append]

/-- Where taking a host future leads to: its factory is called. -/
theorem take_await {factory : OperationId → Action Future} {onReject : Value → Action (Cause Value)}
    {stopper : Subscription} {x : Except Panic Future}
    (hs : w.newOperation.2.react m.token (.stop w.newOperation.1) = (some stopper, w₁))
    (hf : (factory w.newOperation.1).run w₁ = (x, w₂)) :
    ∃ v, w₂.Alike v ∧
      (m.tick.take (.liftPromise factory onReject) w =
        match x with
        | .ok future =>
          { process := .awaiting m.tick { op := w.newOperation.1, stopper, future, onReject }, world := v }
        | .error p => { process := .next m.tick (.die p.defect), world := v.unsubscribe stopper }) ∧
      (Node.liftPromise factory onReject).calls m.env m.token
          (w.record (.step (Node.liftPromise factory onReject).kind m.frames.height)) =
        [.promise factory w.newOperation.1] := by
  have hrec := World.Alike.of_record w (.step (Node.liftPromise factory onReject).kind m.frames.height)
  obtain ⟨v₁, hs', halike₁⟩ := World.Alike.answer (World.react_alike (World.newOperation_alike hrec).2 _ _) hs
  obtain ⟨v₂, hf', halike₂⟩ := World.Alike.answer ((factory w.newOperation.1).run_alike halike₁) hf
  refine ⟨v₂, halike₂, ?_, ?_⟩
  · have hs'' : (w.record (.step (Node.liftPromise factory onReject).kind m.tick.frames.height)).newOperation.2.react
        m.tick.token (.stop (w.record (.step (Node.liftPromise factory onReject).kind m.tick.frames.height)).newOperation.1) =
      (some stopper, v₁) := hs'
    have hf'' : (factory (w.record (.step (Node.liftPromise factory onReject).kind m.tick.frames.height)).newOperation.1).run
        v₁ = (x, v₂) := hf'
    simp only [Interpreter.take, Interpreter.await, hs'', hf'']
    cases x <;> rfl
  · have hs'' : (w.record (.step (Node.liftPromise factory onReject).kind m.frames.height)).newOperation.2.react
        m.token (.stop (w.record (.step (Node.liftPromise factory onReject).kind m.frames.height)).newOperation.1) =
      (some stopper, v₁) := hs'
    simp only [Node.calls, hs'']
    rfl

/-- A host future that is awaited. -/
theorem promise (hR : Surroundings R) (ho : w.isInterrupted m.token = false) (hsound : w.Sound)
    {factory : OperationId → Action Future} {onReject : Value → Action (Cause Value)} {stopper : Subscription}
    {future : Future} {w₃ : World} (hs : w.newOperation.2.react m.token (.stop w.newOperation.1) = (some stopper, w₁))
    (hf : (factory w.newOperation.1).run w₁ = (.ok future, w₂))
    (ha : Awaits R m.token { op := w.newOperation.1, stopper, future, onReject } w₂ L₁ n' w₃)
    (h : m.tick.Comes R n' w₃ L₂ r w') :
    m.Comes R (.liftPromise factory onReject) w (.promise factory w.newOperation.1 :: (L₁ ++ L₂)) r w' := by
  obtain ⟨v, halike, htake, hcalls⟩ := take_await hs hf
  obtain ⟨i, h⟩ := h
  have hrun := ((factory w.newOperation.1).run_later w₁).answer hf
  have hwait := awaited (m := m.tick) hR ha rfl (hrun.watches (World.watches_react hsound hs))
  have hlead := Process.Leads.take (n := .liftPromise factory onReject) hR ho
    (by rw [htake]; exact (hwait.trans h).before (hR.alike halike.symm))
  rw [hcalls] at hlead
  exact ⟨i, hlead⟩

/-- A host future whose factory panics. -/
theorem promisePanicked (hR : Surroundings R) (ho : w.isInterrupted m.token = false)
    {factory : OperationId → Action Future} {onReject : Value → Action (Cause Value)} {stopper : Subscription}
    {panic : Panic} (hs : w.newOperation.2.react m.token (.stop w.newOperation.1) = (some stopper, w₁))
    (hf : (factory w.newOperation.1).run w₁ = (.error panic, w₂))
    (h : m.tick.Comes R (.die panic.defect) (w₂.unsubscribe stopper) L r w') :
    m.Comes R (.liftPromise factory onReject) w (.promise factory w.newOperation.1 :: L) r w' := by
  obtain ⟨v, halike, htake, hcalls⟩ := take_await hs hf
  obtain ⟨i, h⟩ := h
  have hlead := Process.Leads.take (n := .liftPromise factory onReject) hR ho
    (by rw [htake]; exact h.before (hR.alike (World.unsubscribe_alike halike stopper).symm))
  rw [hcalls] at hlead
  exact ⟨i, hlead⟩

end Interpreter.Comes

/-! ## Every evaluation is carried out -/

/-- An interpreter that can evaluate trees under a token and in an environment. -/
structure Interpreter.Ready (m : Interpreter) (t : TokenId) (env : Environment) (w : World) : Prop where
  token : m.token = t
  env : m.env = env
  suppressed : m.suppressed = .empty
  inWorld : t < w.tokens.size
  sound : w.Sound

namespace Interpreter.Ready

variable {m : Interpreter} {t : TokenId} {env : Environment} {w w' : World}

/-- An interpreter stays ready in later worlds. -/
theorem later (h : m.Ready t env w) (hl : w.Later w') : m.Ready t env w' :=
  { h with inWorld := Nat.lt_of_lt_of_le h.inWorld hl.tokens, sound := hl.sound h.sound }

/-- Frames and the number of instructions do not matter. -/
theorem of_eq (h : m.Ready t env w) {m' : Interpreter} (ht : m'.token = m.token) (he : m'.env = m.env)
    (hs : m'.suppressed = .empty) : m'.Ready t env w :=
  { h with token := ht.trans h.token, env := he.trans h.env, suppressed := hs }

/-- An interpreter that counts an instruction stays ready. -/
theorem tick (h : m.Ready t env w) : m.tick.Ready t env w := h.of_eq rfl rfl h.suppressed

/-- An interpreter that pushes a frame stays ready. -/
theorem push (h : m.Ready t env w) (f : Frame) : (m.tick.push f).Ready t env w := h.of_eq rfl rfl h.suppressed

end Interpreter.Ready

/-- Whatever a tree evaluates to, an interpreter comes to. -/
theorem Evaluates.comes {R : World → World → Prop} (hR : Surroundings R) {t : TokenId} {env : Environment} {n : Node}
    {w w' : World} {L : List Call} {r : Result} (h : Evaluates R t env n w L r w') {m : Interpreter}
    (hm : m.Ready t env w) : m.Comes R n w L r w' := by
  induction h generalizing m with
  | before hmove _ ih => exact (ih (hm.later (hR.later hmove))).before hmove
  | after _ _ hmove ih => exact (ih hm).after hmove
  | @succeed t env p w ho =>
    obtain rfl := hm.token
    exact .succeed hR hm.suppressed ho p
  | @fail t env c w ho =>
    obtain rfl := hm.token
    exact .fail hR hm.suppressed ho c
  | @interrupt t env w ho =>
    obtain rfl := hm.token
    exact .interrupt hR hm.suppressed ho
  | @lazyValue t env thunk p w w₁ hv ho =>
    obtain rfl := hm.token
    have hl := (evaluate_later thunk w).answer hv
    exact .lazy hR hv (hl.untripped ho) (.succeed (m := m.tick) hR hm.suppressed ho p)
  | @lazyFailure t env thunk c w w₁ w₂ L r hv h ih =>
    obtain rfl := hm.token
    have hl := (evaluate_later thunk w).answer hv
    exact .lazy hR hv ((Evaluates.lazyFailure hv h).untripped hR) (ih (hm.tick.later hl))
  | @asks t env read n w w₁ w₂ L r hg h ih =>
    obtain rfl := hm.token
    obtain rfl := hm.env
    exact .goOn (n := .asks read) hR hg ((Evaluates.asks hg h).untripped hR) rfl
      (ih (hm.tick.later ((guarded_later _ _).answer hg)))
  | @defer t env factory n w w₁ w₂ L r hg h ih =>
    obtain rfl := hm.token
    exact .goOn (n := .defer factory) hR hg ((Evaluates.defer hg h).untripped hR) rfl
      (ih (hm.tick.later ((guarded_later _ _).answer hg)))
  | @give t env env' inner w w₁ L r h ih =>
    obtain rfl := hm.token
    have hinner : ({ m.tick with env := env' }.push (.restore m.env)).Ready m.token env' w :=
      { hm with token := rfl, env := rfl, suppressed := hm.suppressed }
    exact .passed (n := .give inner env') hR (h.untripped hR) (ih hinner) rfl rfl
      (fun i => Interpreter.pop_push _ _ _ _) rfl
  | @chainValue t env inner n k p w w₁ w₂ w₃ L₁ L₂ r h₁ hg h₂ ih₁ ih₂ =>
    obtain rfl := hm.token
    have ho := h₁.untripped hR
    have hm₂ := (hm.later (h₁.later hR)).later ((guarded_later _ _).answer hg)
    cases inner with
    | succeed p' =>
      obtain ⟨rfl, hp, hmove⟩ := h₁.of_succeed hR
      obtain rfl := Result.value.inj hp
      have ho₁ : w₁.isInterrupted m.token = false := ((guarded_later (k p) w₁).answer hg).untripped (h₂.untripped hR)
      exact (Interpreter.Comes.goOn (n := .chain (.succeed p) k) hR hg ho₁ rfl (ih₂ hm₂.tick)).before hmove
    | succeedLazy thunk =>
      obtain ⟨w₀, v, hmove, rfl, ⟨p', hv, hp, rfl, ho₁⟩ | ⟨c, _, hp, _⟩⟩ := h₁.of_succeedLazy hR
      · obtain rfl := Result.value.inj hp
        have hl := (evaluate_later thunk w₀).answer hv
        exact (Interpreter.Comes.chainLazy hR hv hg (hl.untripped ho₁) (ih₂ hm₂.tick)).before hmove
      · nomatch hp
    | _ =>
      exact .resumed hR ho rfl rfl (fun m₀ => Interpreter.pop_push m₀ _ _ _) (ih₁ (hm.push (.apply k))) (hR.refl w₁) hg
        fun i => ih₂ (hm₂.of_eq rfl rfl rfl)
  | @chainPass t env inner k w w₁ L r h hr ih =>
    obtain rfl := hm.token
    have ho := h.untripped hR
    cases inner with
    | succeed p =>
      obtain ⟨_, rfl, _⟩ := h.of_succeed hR
      nomatch hr
    | succeedLazy thunk =>
      obtain ⟨w₀, v, hmove, rfl, ⟨p', _, rfl, _⟩ | ⟨c, hv, rfl, ho₁, hmove'⟩⟩ := h.of_succeedLazy hR
      · nomatch hr
      · have hl := (evaluate_later thunk w₀).answer hv
        have hfail := Interpreter.Comes.fail (m := m.tick) hR hm.suppressed ho₁ c
        exact ((Interpreter.Comes.chainLazyFailure hR hv (hl.untripped ho₁) hfail).before hmove).after hmove'
    | _ =>
      refine .passed hR ho (ih (hm.push (.apply k))) rfl rfl (fun i => ?_) ?_
      · cases r with
        | value p => nomatch hr
        | _ => exact Interpreter.pop_push _ _ _ _
      · cases r with
        | value p => nomatch hr
        | _ => rfl
  | @matchValue t env inner n recover k p w w₁ w₂ w₃ w₄ L₁ L₂ r h₁ hmove hg h₂ ih₁ ih₂ =>
    obtain rfl := hm.token
    have hm₂ := ((hm.later (h₁.later hR)).later (hR.later hmove)).later ((guarded_later _ _).answer hg)
    exact .resumed (n := .matchCause inner recover k) hR (h₁.untripped hR) rfl rfl
      (fun m₀ => Interpreter.pop_push m₀ _ _ _) (ih₁ (hm.push (.fold recover k))) hmove hg
      fun i => ih₂ (hm₂.of_eq rfl rfl rfl)
  | @matchFailure t env inner n recover k c w w₁ w₂ w₃ w₄ L₁ L₂ r h₁ hmove hg h₂ ih₁ ih₂ =>
    obtain rfl := hm.token
    have hm₂ := ((hm.later (h₁.later hR)).later (hR.later hmove)).later ((guarded_later _ _).answer hg)
    exact .resumed (n := .matchCause inner recover k) hR (h₁.untripped hR) rfl rfl
      (fun m₀ => Interpreter.pop_push m₀ _ _ _) (ih₁ (hm.push (.fold recover k))) hmove hg
      fun i => ih₂ (hm₂.of_eq rfl rfl rfl)
  | @matchInterrupted t env inner recover k suppressed w w₁ L h ih =>
    obtain rfl := hm.token
    exact .passed (n := .matchCause inner recover k) hR (h.untripped hR) (ih (hm.push (.fold recover k))) rfl rfl
      (fun i => Interpreter.pop_push _ _ _ _) rfl
  | @ensuring t env inner finalizer w w₁ w₂ w₃ w₄ L₁ L₂ r rf h₁ hmove h₂ hmove' ho ih₁ ih₂ =>
    obtain rfl := hm.token
    obtain rfl := hm.env
    have hsound := (World.newToken_later w₂).sound ((hR.later hmove).sound ((h₁.later hR).sound hm.sound))
    have hchild := ih₂ (m := { env := m.env, token := w₂.newToken.1, interval := m.interval }) ⟨rfl, rfl, rfl, w₂.newToken_lt, hsound⟩
    exact .ensuring hR (h₁.untripped hR) (ih₁ (hm.push (.finalize finalizer))) hmove hchild hmove' ho
  | @promise t env factory onReject stopper future n w w₁ w₂ w₃ w₄ L₁ L₂ r ho hs hf ha h ih =>
    obtain rfl := hm.token
    have hl : w.Later w₃ := (begun_later hs hf).trans (ha.later hR)
    exact .promise hR ho hm.sound hs hf ha (ih (hm.tick.later hl))
  | @promisePanicked t env factory onReject stopper panic w w₁ w₂ w₃ L r ho hs hf h ih =>
    obtain rfl := hm.token
    have hl : w.Later (w₂.unsubscribe stopper) := (begun_later hs hf).trans (World.unsubscribe_later _ _)
    exact .promisePanicked hR ho hs hf (ih (hm.tick.later hl))

end Interruptible
