import Interruptible.Proofs.Machine.Plans

/-!
# Turns of interpreters that carry out plans

What a turn leaves follows the same exit as before: taking a node, popping a frame, going on after a finalizer, polling a
future and ending a round of a group, each on its own (`Interpreter.take_follows`, `Interpreter.pop_follows` and so on), and
then any turn of a process that is left alone (`Process.Follows.turn`).
-/

namespace Interruptible

open Plan

/-! ## Taking a node -/

/-- A record makes no difference for what follows a turn. -/
theorem Turn.Follows.recorded {own : CellId → Prop} {w : World} {H : Heap} {x : Option (Exit Value Payload)} {t : Turn}
    {r : Record} (h : t.Follows own (w.record r) H x) : t.Follows own w H x := by
  obtain ⟨H', hp, hrun⟩ := h
  exact ⟨H', hp, hrun.cells rfl rfl⟩

/-- A plan that is realized by a success has its value for a result. -/
theorem Plan.result_of_succeed {plan : Plan} {H : Heap} {p : Payload} (h : plan.Realized H (.succeed p))
    (env : Environment) : plan.result env = some (.value p) := by
  cases plan with
  | succeed p' => rw [Node.succeed.inj h]; rfl
  | fail c | interrupt => nomatch h
  | compute r | asks read | give inner env | all children | defer inner | await r =>
    simp only [Realized] at h
    grind
  | chain inner apply | matchCause inner recover apply | ensuring inner finalizer =>
    simp only [Realized] at h
    grind
  | bracket acquire use panics release =>
    obtain ⟨_, _, _, _, _, hn, _⟩ := h
    nomatch hn

/-- A plan that is realized by a lazy success computes what its thunk comes to. -/
theorem Plan.of_succeedLazy {plan : Plan} {H : Heap} {thunk : Action (Except (Cause Value) Payload)}
    (h : plan.Realized H (.succeedLazy thunk)) : ∃ r, plan = .compute r ∧ thunk.Comes (fun _ o => Cause.computed o = r) H := by
  cases plan with
  | compute r =>
    obtain ⟨thunk', hn, h⟩ := h
    rw [Node.succeedLazy.inj hn]
    exact ⟨r, rfl, h⟩
  | succeed p | fail c | interrupt => nomatch h
  | asks read | give inner env | all children | defer inner | await r =>
    simp only [Realized] at h
    grind
  | chain inner apply | matchCause inner recover apply | ensuring inner finalizer =>
    simp only [Realized] at h
    grind
  | bracket acquire use panics release =>
    obtain ⟨_, _, _, _, _, hn, _⟩ := h
    nomatch hn

/-- Branches that have just started on trees that carry out plans. -/
theorem Branch.AllFollow.start {plans : List Plan} {ns : List Node} {H : Heap} (h : AllRealized plans H ns)
    (env : Environment) {t : TokenId} (k : Nat) {w : World} (ht : t < w.tokens.size) :
    Branch.AllFollow w (ns.map fun n => .running (.start n env t k)) H (results plans env) := by
  induction plans generalizing ns H with
  | nil =>
    obtain rfl : ns = [] := h
    exact .nil
  | cons plan plans ih =>
    obtain ⟨n, ns', H₁, H₂, rfl, rfl, hn, hns⟩ := h
    refine .running (.next ⟨ht, fun _ => rfl⟩ (.onTop (.plan hn) (@Frame.Stack.nil _ []))) (ih hns) (by simp) ?_
    simp only [results]
    cases plan.result env with
    | none => rfl
    | some r => cases r <;> rfl

namespace Interpreter

variable {m : Interpreter} {own : CellId → Prop} {w : World} {H : Heap} {x : Option (Exit Value Payload)}

/-- An interpreter that calls code back follows the plan of the node that the code builds. -/
theorem goOn_follows {a : Action Node} (hm : m.Steady (.value .unit) w)
    (h : ∃ H', (Node.built (a.run w).1).LeadsTo m.env m.frames.frames H' x ∧ H.Becomes own w (a.run w).2 H') :
    (m.goOn a w).Follows own w H x := by
  obtain ⟨H', hn, hrun⟩ := h
  unfold goOn
  rw [guarded_eq]
  exact ⟨H', .next (hm.later (a.run_later w)) hn, hrun⟩

/-- An interpreter that does not unwind keeps no failures of finalizers, whatever it has come to. -/
theorem Steady.working (hm : m.Steady (.value .unit) w) (o : Outcome) : m.Steady o w :=
  ⟨hm.token, fun _ => hm.suppressed (by simp)⟩

/-- An interpreter that does not unwind keeps no failures of finalizers. -/
theorem Steady.working' {o : Outcome} (hm : m.Steady o w) (ho : o ≠ .interruption) : m.Steady (.value .unit) w :=
  ⟨hm.token, fun _ => hm.suppressed ho⟩

/-- An interpreter with one more frame is as steady as before. -/
theorem Steady.push {o : Outcome} (hm : m.Steady o w) (f : Frame) : (m.push f).Steady o w := ⟨hm.token, hm.suppressed⟩

/-- A frame is pushed, and the node below it comes next. -/
theorem pushed_follows (hm : m.Steady (.value .unit) w) {f : Frame} {n : Node} (r : Record)
    (hn : n.LeadsTo m.env (f :: m.frames.frames) H x) (hH : H.Stands own w) :
    Turn.Follows own w H x { process := .next (m.push f) n, world := w.record r } :=
  ⟨H, .next ((hm.later (World.record_later w r)).push f) hn, (Heap.Becomes.refl hH).cells rfl rfl⟩

/-- A computation has been done. -/
theorem evaluated {thunk : Action (Except (Cause Value) Payload)} {r : Except (Cause Value) Payload} {H : Heap}
    (ht : thunk.Comes (fun _ o => Cause.computed o = r) H) (w : World) :
    ∃ w', evaluate thunk w = (r, w') ∧ w.Later w' ∧ w.cells.size ≤ w'.cells.size ∧
      ∀ c, c < w.cells.size → w'.cells[c]? = w.cells[c]? := by
  obtain ⟨_, hr⟩ := ht.outcome w
  refine ⟨_, ?_, thunk.run_later w, ht.grows w, fun c hc => ht.kept w hc⟩
  rw [evaluate_eq, hr]

/-- A callback builds a node that carries out a plan. -/
theorem goOn_built {plan : Plan} {a : Action Node} {H₁ H₂ : Heap} {κ : Handler} (hm : m.Steady (.value .unit) w)
    (ha : a.Comes (fun H o => plan.Realized H (Node.built o)) H₁) (hs : Frame.Stack m.env m.frames.frames H₂ κ)
    (hH : (H₁ ++ H₂).Stands own w) (hmake : ∀ c, w.cells.size ≤ c → c < (a.run w).2.cells.size → own c) :
    (m.goOn a w).Follows own w (H₁ ++ H₂) ((plan.result m.env).bind κ) := by
  obtain ⟨H', hn, hrun⟩ := ha.run (Heap.stands_append.mp hH).1 hmake
  exact goOn_follows hm ⟨_, .onTop (.plan hn) hs, hrun.front hH⟩

/-- Taking a chain: a value that is there at once is handed over, and otherwise the continuation becomes a frame. -/
theorem take_chain {plan : Plan} {inner : Node} {k : Payload → Action Node} {H₁ H₂ : Heap} {κ : Handler}
    (hm : m.Steady (.value .unit) w) (hi : plan.Realized H₁ inner)
    (hs : Frame.Stack m.env (.apply k :: m.frames.frames) H₂ κ) (hH : (H₁ ++ H₂).Stands own w)
    (hmake : ∀ c, w.cells.size ≤ c → c < (m.take (.chain inner k) w).world.cells.size → own c) :
    (m.take (.chain inner k) w).Follows own w (H₁ ++ H₂) ((plan.result m.env).bind κ) := by
  have hsub : ∀ y ∈ H₂, y ∈ H₁ ++ H₂ := fun y hy => List.mem_append_right _ hy
  have hH₂ := (Heap.stands_append.mp hH).2.1
  cases inner with
  | succeed p =>
    rw [Plan.result_of_succeed hi]
    simp only [take, goOn_world] at hmake
    have hrec : ∀ r, H₂.Stands own (w.record r) := fun _ => ⟨hH₂.once, hH₂.owned, hH₂.lies⟩
    obtain ⟨H', hn, hrun⟩ := hs.applied p (hrec _) hmake
    exact Turn.Follows.recorded (goOn_follows (hm.later (World.record_later w _)) ⟨H', hn, hrun.of_part hsub⟩)
  | succeedLazy thunk =>
    obtain ⟨r, rfl, ht⟩ := Plan.of_succeedLazy hi
    obtain ⟨w', heq, hlater, hgrows, hkept⟩ :=
      evaluated ht (w.record (.step (Node.kind (.chain (.succeedLazy thunk) k)) m.frames.height))
    have hm' := hm.later ((World.record_later w _).trans hlater)
    have hstep : (H₁ ++ H₂).Becomes own w w' (H₁ ++ H₂) := .of_kept hH hkept
    cases r with
    | error c =>
      simp only [take, heq]
      obtain ⟨H', κ', hs', hsub', hκ⟩ := hs.passed (.failure c) rfl
      refine ⟨[] ++ H', .next hm' ?_, hstep.sublist (hsub'.trans (List.sublist_append_right _ _))⟩
      rw [show (Plan.result (.compute (.error c)) m.env).bind κ = (Plan.result (.fail c) m.env).bind κ' from hκ.symm]
      exact .onTop (.plan rfl) hs'
    | ok p =>
      simp only [take, heq, goOn_world] at hmake ⊢
      obtain ⟨H', hn, hrun⟩ := hs.applied p (Heap.stands_append.mp hstep.stands).2.1 fun c hle hlt =>
        hmake c (Nat.le_trans hgrows hle) hlt
      obtain ⟨H'', hp, hrun'⟩ := goOn_follows hm' ⟨H', hn, hrun.of_part hsub⟩
      exact ⟨H'', hp, hstep.trans hrun'⟩
  | _ => exact pushed_follows hm _ (.onTop (.plan hi) hs) hH

/-- The branches of a group start. -/
theorem fanOut_follows {plans : List Plan} {ns : List Node} {H₁ H₂ : Heap} {κ : Handler} (hm : m.Steady (.value .unit) w)
    (ho : w.isInterrupted m.token = false) (hn : AllRealized plans H₁ ns) (hs : Frame.Stack m.env m.frames.frames H₂ κ)
    (hH : (H₁ ++ H₂).Stands own w) :
    (m.fanOut ns w).Follows own w (H₁ ++ H₂) ((Plan.result (.all plans) m.env).bind κ) := by
  have hnew : w.newToken.2.isInterrupted m.token = false := (w.isInterrupted_newToken m.token).trans ho
  have hm' := hm.later (World.newToken_later w)
  obtain ⟨s, v, hreact⟩ := World.react_eq_some hm'.token hnew (.forward w.newToken.1)
  have hlater : w.newToken.2.Later v := (World.react_later _ _ _ (by simp)).answer hreact
  have hcells : v.cells = w.cells := by
    rw [World.of_react_eq_some hreact]
    rfl
  simp only [fanOut, hreact]
  refine ⟨H₁ ++ H₂, .joining ((hm'.later hlater).later (World.record_later _ _)) rfl
    (.start hn m.env m.interval (Nat.lt_of_lt_of_le w.newToken_lt hlater.tokens)) hs rfl ?_, (Heap.Becomes.refl hH).cells rfl hcells⟩
  simp only [Plan.result]
  cases results plans m.env <;> rfl

/-- A host future is begun: its factory is called. -/
theorem await_follows {factory : OperationId → Action Future} {onReject : Value → Action (Cause Value)}
    {r : Except (Cause Value) Payload} {κ : Handler} (hm : m.Steady (.value .unit) w) (hw : w.Sound)
    (ho : w.isInterrupted m.token = false)
    (hf : ∀ op, ∃ H, (factory op).Comes (fun _ o =>
      match o with
      | .ok future => future.Settles onReject r
      | .error p => r = .error (.die p.defect)) H)
    (hs : Frame.Stack m.env m.frames.frames H κ) (hH : H.Stands own w) :
    (m.await factory onReject w).Follows own w H (κ (.ofExcept r)) := by
  obtain ⟨s, v, hreact⟩ := @World.react_eq_some w.newOperation.2 m.token hm.token ho (.stop w.newOperation.1)
  have hlater : w.Later v := (World.react_stop_later w m.token).answer hreact
  have hcells : v.cells = w.cells := by
    rw [World.of_react_eq_some hreact]
    rfl
  obtain ⟨H', hf⟩ := hf w.newOperation.1
  obtain ⟨-, hout⟩ := hf.outcome v
  have hrun := (factory w.newOperation.1).run_later v
  have hbecomes : H.Becomes own w ((factory w.newOperation.1).run v).2 H :=
    .of_kept hH fun c hc => by rw [hf.kept v (by rwa [hcells]), hcells]
  simp only [await, hreact]
  split
  · rename_i future u hu
    rw [hu] at hout hrun hbecomes
    exact ⟨H, .awaiting ((hm.later hlater).later hrun) (hrun.watches (World.watches_react hw hreact)) hout hs rfl, hbecomes⟩
  · rename_i p u hu
    rw [hu] at hout hrun hbecomes
    obtain rfl := hout
    have hlater' := (hlater.trans hrun).trans (World.unsubscribe_later u s)
    exact ⟨[] ++ H, .next (hm.later hlater') (.onTop (.plan (by rfl : (Plan.fail (.die p.defect)).Realized [] _)) hs),
      hbecomes.cells rfl rfl⟩

/-- Taking a node that carries out a plan. -/
theorem take_plan {plan : Plan} {n : Node} {H₁ H₂ : Heap} {κ : Handler} (hm : m.Steady (.value .unit) w) (hw : w.Sound)
    (ho : w.isInterrupted m.token = false) (hn : plan.Realized H₁ n) (hs : Frame.Stack m.env m.frames.frames H₂ κ)
    (hH : (H₁ ++ H₂).Stands own w)
    (hspare : n = .interrupt → ∀ c, own c → (m.take n w).world.cells[c]? = w.cells[c]?)
    (hmake : n ≠ .interrupt → ∀ c, w.cells.size ≤ c → c < (m.take n w).world.cells.size → own c) :
    (m.take n w).Follows own w (H₁ ++ H₂) ((plan.result m.env).bind κ) := by
  have hrec := hm.later (World.record_later w (.step n.kind m.frames.height))
  have hH' : ∀ r, (H₁ ++ H₂).Stands own (w.record r) := fun _ => ⟨hH.once, hH.owned, hH.lies⟩
  have hback := List.sublist_append_right H₁ H₂
  cases plan with
  | succeed p =>
    obtain rfl := hn
    exact ⟨H₂, .popping (hrec.working _) hs rfl, ((Heap.Becomes.refl hH).sublist hback).cells rfl rfl⟩
  | fail c =>
    obtain rfl := hn
    exact ⟨H₂, .popping (hrec.working _) hs rfl, ((Heap.Becomes.refl hH).sublist hback).cells rfl rfl⟩
  | interrupt =>
    obtain rfl := hn
    have hm' := hm.later (m.take_later .interrupt w)
    refine ⟨H₂, .popping ⟨hm'.token, fun h => absurd rfl h⟩ hs ?_, (Heap.Becomes.of_same hH (hspare rfl)).sublist hback⟩
    show κ _ = κ (.interrupted m.suppressed)
    rw [hm.suppressed (by simp)]
  | compute r =>
    obtain ⟨thunk, rfl, ht⟩ := hn
    obtain ⟨w', heq, hlater, hgrows, hkept⟩ :=
      evaluated ht (w.record (.step (Node.kind (.succeedLazy thunk)) m.frames.height))
    have hm' := hrec.later hlater
    have hstep : (H₁ ++ H₂).Becomes own w w' ([] ++ H₂) := .sublist (.of_kept hH hkept) hback
    cases r with
    | ok p =>
      have hleaf : (Plan.succeed p).Realized [] (.succeed p) := rfl
      have hn : Node.LeadsTo m.env _ _ _ (κ (.value p)) := .onTop (.plan hleaf) hs
      simp only [take, heq]
      exact ⟨_, .next hm' hn, hstep⟩
    | error c =>
      have hleaf : (Plan.fail c).Realized [] (.fail c) := rfl
      have hn : Node.LeadsTo m.env _ _ _ (κ (.failure c)) := .onTop (.plan hleaf) hs
      simp only [take, heq]
      exact ⟨_, .next hm' hn, hstep⟩
  | asks read =>
    obtain ⟨read', rfl, hread⟩ := hn
    have hmake := hmake (by simp)
    simp only [take, goOn_world] at hmake
    have hgo := goOn_built hrec (hread m.env) hs (hH' _) hmake
    exact hgo.recorded
  | give inner env =>
    obtain ⟨inner', rfl, hi⟩ := hn
    exact ⟨_, .next ⟨hrec.token, hrec.suppressed⟩ (.onTop (.plan hi) (.restore hs)), (Heap.Becomes.refl hH).cells rfl rfl⟩
  | all children =>
    obtain ⟨children', rfl, hc⟩ := hn
    exact Turn.Follows.recorded (fanOut_follows hrec ho hc hs (hH' _))
  | defer inner =>
    obtain ⟨factory, rfl, hf⟩ := hn
    have hmake := hmake (by simp)
    simp only [take, goOn_world] at hmake
    have hgo := goOn_built hrec hf hs (hH' _) hmake
    exact hgo.recorded
  | await r =>
    obtain ⟨factory, onReject, rfl, hf⟩ := hn
    obtain ⟨H', hp, hrun⟩ := await_follows hrec ((World.record_later w _).sound hw) ho (fun op => ⟨H₁, hf op⟩) hs
      (Heap.stands_append.mp (hH' _)).2.1
    exact ⟨H', hp, (hrun.of_part fun y hy => List.mem_append_right _ hy).cells rfl rfl⟩
  | chain inner apply =>
    obtain ⟨inner', apply', H₃, H₄, rfl, rfl, hi, hk⟩ := hn
    rw [List.append_assoc] at hH ⊢
    rw [Plan.result_chain]
    exact take_chain hm hi (.apply hk hs) hH (hmake (by simp))
  | matchCause inner recover apply =>
    obtain ⟨inner', recover', apply', H₃, H₄, rfl, rfl, hi, hr, hk⟩ := hn
    rw [List.append_assoc] at hH ⊢
    rw [Plan.result_matchCause]
    exact pushed_follows hm _ (.onTop (.plan hi) (.fold hr hk hs)) hH
  | ensuring inner finalizer =>
    obtain ⟨inner', finalizer', H₃, H₄, rfl, rfl, hi, hf⟩ := hn
    rw [List.append_assoc] at hH ⊢
    rw [Plan.result_ensuring]
    exact pushed_follows hm _ (.onTop (.plan hi) (.finalize (.plan hf) hs)) hH
  | bracket acquire use panics release =>
    obtain ⟨acquire', H₃, H₄, H₅, b, rfl, rfl, ha, hu, hr⟩ := hn
    have hheap : H₃ ++ (H₄ ++ (H₅ ++ [(b.cell, none)])) ++ H₂ = H₃ ++ (H₄ ++ (H₅ ++ (b.cell, none) :: H₂)) := by simp
    rw [hheap] at hH ⊢
    rw [Plan.result_bracket]
    exact pushed_follows hm _ (.acquire ha hu hr hs) hH

/-- An effect is built when it is its turn. -/
theorem take_defer {factory : Action Node} {w₁ : World} (hm : m.Steady (.value .unit) w)
    (hw : w₁ = w.record (.step "defer" m.frames.height))
    (h : ∃ H', (Node.built (factory.run w₁).1).LeadsTo m.env m.frames.frames H' x ∧
      H.Becomes own w₁ (factory.run w₁).2 H') : (m.take (.defer factory) w).Follows own w H x := by
  subst hw
  exact Turn.Follows.recorded (goOn_follows (hm.later (World.record_later w _)) h)

/-- Taking the guard of a bracket whose resource is gone. -/
theorem take_idle {b : Lease} {H₂ : Heap} {κ : Handler} (hm : m.Steady (.value .unit) w)
    (hs : Frame.Stack m.env m.frames.frames H₂ κ) (hH : Heap.Stands own ((b.cell, none) :: H₂) w) :
    (m.take b.guard w).Follows own w ((b.cell, none) :: H₂) (κ (.value .unit)) := by
  generalize hw : w.record (.step "defer" m.frames.height) = w₁
  have hH₁ : Heap.Stands own ([] ++ (b.cell, none) :: H₂) w₁ := hw ▸ ⟨hH.once, hH.owned, hH.lies⟩
  have hput : Heap.Becomes own w₁ ((b.cell, none) :: H₂) (b.emptied w₁) ((b.cell, none) :: H₂) := .put hH₁ none
  obtain ⟨factory, hf⟩ : ∃ factory, b.guard = .defer factory := ⟨_, rfl⟩
  have hrun : factory.run w₁ = (.ok .unit, b.emptied w₁) := by
    have htake : (w₁.cells[b.cell]?).join = none := by
      rw [hH₁.lies (b.cell, none) List.mem_cons_self]
      rfl
    obtain rfl := Node.defer.inj hf
    simp only [Action.perform, bind, Action.bind, Action.run, Command.run, htake]
    rfl
  have hleaf : (Plan.succeed .unit).Realized [] (.succeed .unit) := rfl
  rw [hf]
  refine take_defer hm hw.symm ⟨[] ++ H₂, ?_, ?_⟩
  · rw [hrun]
    exact (.onTop (.plan hleaf) hs : Node.LeadsTo m.env .unit m.frames.frames ([] ++ H₂) (κ (.value .unit)))
  · rw [hrun]
    exact hput.sublist (List.sublist_cons_self _ _)

/-- Taking the guard of a bracket whose resource lies in its cell: the resource is released. -/
theorem take_guard {b : Lease} {panics : Payload → Exit Value Payload → Option Panic}
    {release : Payload → Exit Value Payload → Plan} {H₁ H₂ : Heap} {κ : Handler} (hm : m.Steady (.value .unit) w)
    (hr : b.ReleasesAs panics release H₁) (hs : Frame.Stack m.env m.frames.frames H₂ κ)
    (hH : (H₁ ++ (b.cell, some b.resource) :: H₂).Stands own w)
    (hmake : ∀ c, w.cells.size ≤ c → c < (m.take b.guard w).world.cells.size → own c) :
    (m.take b.guard w).Follows own w (H₁ ++ (b.cell, some b.resource) :: H₂)
      (((guarding (panics b.resource .interrupted) (release b.resource .interrupted)).result m.env).bind κ) := by
  generalize hw : w.record (.step "defer" m.frames.height) = w₁
  have hH₁ : (H₁ ++ (b.cell, some b.resource) :: H₂).Stands own w₁ := hw ▸ ⟨hH.once, hH.owned, hH.lies⟩
  have hput : Heap.Becomes own w₁ _ (b.emptied w₁) (H₁ ++ (b.cell, none) :: H₂) := .put hH₁ none
  have hholds : b.Holds w₁ := hH₁.lies (b.cell, some b.resource) (by simp)
  have hsize : (b.emptied w₁).cells.size = w.cells.size := by
    subst hw
    simp [Lease.emptied, World.record]
  obtain ⟨factory, hf⟩ : ∃ factory, b.guard = .defer factory := ⟨_, rfl⟩
  have hrun : factory.run w₁ = (Node.releasing b.release b.resource .interrupted).run (b.emptied w₁) := by
    have htake := hholds.take
    obtain rfl := Node.defer.inj hf
    simp only [Action.perform, bind, Action.bind, Action.run, Command.run, htake]
    rfl
  have hworld : (m.take b.guard w).world = (factory.run w₁).2 := by
    subst hw
    rw [hf]
    exact m.goOn_world factory _
  rw [hworld, hrun] at hmake
  obtain ⟨H', hn, hrel⟩ := (hr.guarding b.resource .interrupted).run (Heap.stands_append.mp hput.stands).1
    (by rwa [hsize])
  rw [hf]
  refine take_defer hm hw.symm ⟨H' ++ H₂, ?_, ?_⟩
  · rw [hrun]
    exact .onTop (.plan hn) hs
  · rw [hrun]
    exact (hput.trans (hrel.front hput.stands)).sublist (List.Sublist.append_left (List.sublist_cons_self _ _) _)

/-- Taking a node of a bracket that has come to its resource. -/
theorem take_entering {b : Lease} {n : Node} {above fs : List Frame} {H₂ H₃ H : Heap} {κ : Handler}
    {use : Plan} {panics : Payload → Exit Value Payload → Option Panic} {release : Payload → Exit Value Payload → Plan}
    (hm : m.Steady (.value .unit) w) (hf : m.frames.frames = above ++ b.guardedFrames fs) (he : b.Entering n above)
    (hu : (b.use b.resource).Comes (fun H o => use.Realized H (Node.built o)) H₂) (hr : b.ReleasesAs panics release H₃)
    (hs : Frame.Stack m.env fs H κ) (hH : (H₂ ++ (H₃ ++ (b.cell, none) :: H)).Stands own w)
    (hmake : ∀ c, w.cells.size ≤ c → c < (m.take n w).world.cells.size → own c) :
    (m.take n w).Follows own w (H₂ ++ (H₃ ++ (b.cell, none) :: H))
      ((use.result m.env).bind (κ.afterUse m.env (panics b.resource) (release b.resource))) := by
  cases he with
  | handedOver =>
    refine pushed_follows hm (.step b.handedOver.kind m.frames.height) ?_ hH
    rw [hf]
    exact .enter (.captured b) hu hr hs
  | captured =>
    refine pushed_follows hm (.step b.start.result.kind m.frames.height) ?_ hH
    rw [hf]
    exact .enter (.start b) hu hr hs
  | start =>
    have hrec := hm.later (World.record_later w (.step b.start.kind m.frames.height))
    have hput : Heap.Becomes own w (H₂ ++ (H₃ ++ (b.cell, none) :: H))
        (b.filled (w.record (.step b.start.kind m.frames.height))) (H₂ ++ (H₃ ++ (b.cell, some b.resource) :: H)) := by
      have hsplit : ∀ y, H₂ ++ (H₃ ++ (b.cell, y) :: H) = H₂ ++ H₃ ++ (b.cell, y) :: H := fun y => by simp
      rw [hsplit] at hH ⊢
      rw [hsplit]
      exact (Heap.Becomes.put hH (some b.resource)).cells rfl rfl
    have hsize : (b.filled (w.record (.step b.start.kind m.frames.height))).cells.size = w.cells.size := by
      simp [Lease.filled, World.record]
    have hstart : m.take b.start w = m.goOn (do Action.perform (.fill b.cell b.resource); b.use b.resource)
        (w.record (.step b.start.kind m.frames.height)) := rfl
    rw [hstart, goOn_world] at hmake
    rw [hstart]
    obtain ⟨H', hn, hrun⟩ := hu.run (Heap.stands_append.mp hput.stands).1 (by rw [hsize]; exact hmake)
    refine Turn.Follows.recorded (goOn_follows hrec ⟨H' ++ (H₃ ++ (b.cell, some b.resource) :: H), ?_, ?_⟩)
    · rw [hf]
      exact .onTop (.plan hn) (.capture (.resume hr hs))
    · exact (hput.trans (hrun.front hput.stands)).cells rfl rfl

/-- Taking a node while nobody has tripped the token. -/
theorem take_follows {n : Node} (hm : m.Steady (.value .unit) w) (hw : w.Sound) (ho : w.isInterrupted m.token = false)
    (hn : n.LeadsTo m.env m.frames.frames H x) (hH : H.Stands own w)
    (hspare : n = .interrupt → ∀ c, own c → (m.take n w).world.cells[c]? = w.cells[c]?)
    (hmake : n ≠ .interrupt → ∀ c, w.cells.size ≤ c → c < (m.take n w).world.cells.size → own c) :
    (m.take n w).Follows own w H x := by
  generalize hf : m.frames.frames = fs at hn
  cases hn with
  | onTop hn hs =>
    subst hf
    cases hn with
    | plan hn => exact take_plan hm hw ho hn hs hH hspare hmake
    | idle b => exact take_idle hm hs hH
    | guard h =>
      rw [List.append_assoc] at hH ⊢
      exact take_guard hm h hs hH (hmake nofun)
  | acquire hn hu hr hs =>
    refine take_chain hm hn ?_ hH (hmake (by simp))
    rw [hf]
    exact .acquire hu hr hs
  | enter he hu hr hs => exact take_entering hm hf he hu hr hs hH (hmake (by cases he <;> nofun))

end Interpreter

/-! ## Popping a frame, and going on after a finalizer -/

namespace Interpreter

variable {m : Interpreter} {own : CellId → Prop} {w : World} {H : Heap} {x : Option (Exit Value Payload)}

/-- The exit of an interpreter is that of its outcome with the failures that it carries along. -/
theorem exit_eq (m : Interpreter) (o : Outcome) : m.exit o = (o.result m.suppressed).exit := by cases o <;> rfl

/-- Popping a frame. -/
theorem pop_follows {o : Outcome} {κ : Handler} (hm : m.Steady o w) (hs : Frame.Stack m.env m.frames.frames H κ)
    (hH : H.Stands own w) (hmake : ∀ c, w.cells.size ≤ c → c < (m.pop o w).world.cells.size → own c) :
    (m.pop o w).Follows own w H (κ (o.result m.suppressed)) := by
  cases hf : m.frames.frames with
  | nil =>
    rw [hf] at hs
    rw [pop_nil hf]
    cases hs
    exact ⟨H, .settled (by rw [exit_eq]), .refl hH⟩
  | cons f fs =>
    rw [hf] at hs
    obtain ⟨s', hpop, rfl⟩ := FrameStack.pop?_eq_some hf
    unfold pop at hmake ⊢
    rw [hpop] at hmake ⊢
    have hm' : ∀ env, Interpreter.Steady { m with frames := s', env } o w := fun _ => ⟨hm.token, hm.suppressed⟩
    cases f with
    | finalize n =>
      cases hs with
      | @finalize _ _ H₁ H₂ κ n r hn hs =>
        have hlater := World.newToken_later w
        refine ⟨H₁ ++ H₂, .finalizing ((hm' m.env).later hlater)
          (.next ⟨w.newToken_lt, fun _ => rfl⟩ (.onTop hn (@Frame.Stack.nil _ []))) hs (by simp) ?_,
          (Heap.Becomes.refl hH).cells rfl rfl⟩
        show κ.finalize r _ = _
        cases r <;> rfl
    | restore env =>
      cases hs with
      | restore hs => exact ⟨H, .popping (hm' env) hs rfl, .refl hH⟩
    | apply k =>
      cases o with
      | value p =>
        simp only [goOn_world] at hmake
        exact goOn_follows ((hm' m.env).working' (by simp)) (hs.applied p hH hmake)
      | failure c =>
        obtain ⟨H', κ', hs', hsub, hκ⟩ := hs.passed (.failure c) rfl
        exact ⟨H', .popping (hm' m.env) hs' hκ.symm, (Heap.Becomes.refl hH).sublist hsub⟩
      | interruption =>
        obtain ⟨H', κ', hs', hsub, hκ⟩ := hs.passed (.interrupted m.suppressed) rfl
        exact ⟨H', .popping (hm' m.env) hs' hκ.symm, (Heap.Becomes.refl hH).sublist hsub⟩
    | fold recover k =>
      cases o with
      | value p =>
        simp only [goOn_world] at hmake
        exact goOn_follows ((hm' m.env).working' (by simp)) (hs.folded_value p hH hmake)
      | failure c =>
        simp only [goOn_world] at hmake
        exact goOn_follows ((hm' m.env).working' (by simp)) (hs.folded_failure c hH hmake)
      | interruption =>
        cases hs with
        | @fold _ _ H₁ H₂ κ _ _ _ _ hr h hs =>
          exact ⟨H₂, .popping (hm' m.env) hs rfl, (Heap.Becomes.refl hH).sublist (List.sublist_append_right _ _)⟩

/-- Going on after a finalizer. -/
theorem finalized_follows {o : Outcome} {e : Exit Value Payload} {κ : Handler} (hm : m.Steady o w)
    (hs : Frame.Stack m.env m.frames.frames H κ) (hH : H.Stands own w) :
    (m.finalized o e w).Follows own w H (κ ((o.result m.suppressed).finalized e)) := by
  cases e with
  | success p =>
    rw [Result.finalized_success]
    exact ⟨H, .popping hm hs rfl, .refl hH⟩
  | failure fc =>
    have hrec := hm.later (World.record_later w .finalizerFailed)
    cases o with
    | value p =>
      have hleaf : (Plan.fail fc).Realized [] (.fail fc) := rfl
      have hn : Node.LeadsTo m.env _ _ _ (κ (.failure fc)) := .onTop (.plan hleaf) hs
      exact ⟨[] ++ H, .next (hrec.working' (by simp)) hn, (Heap.Becomes.refl hH).cells rfl rfl⟩
    | failure c =>
      exact ⟨H, .popping ⟨hrec.token, fun _ => hm.suppressed (by simp)⟩ hs rfl, (Heap.Becomes.refl hH).cells rfl rfl⟩
    | interruption =>
      have hm' : Interpreter.Steady { m with suppressed := m.suppressed.andThen fc } .interruption (w.record .finalizerFailed) :=
        ⟨hrec.token, fun h => absurd rfl h⟩
      exact ⟨H, .popping hm' hs rfl, (Heap.Becomes.refl hH).cells rfl rfl⟩

end Interpreter

/-! ## Awaiting a future -/

/-- What one poll comes to of a future that settles as predicted. -/
def Poll.Settles (onReject : Value → Action (Cause Value)) (r : Except (Cause Value) Payload) : Poll → Prop
  | .pending rest => rest.Settles onReject r
  | .settled (.ok p) => r = .ok p
  | .settled (.error x) => (onReject x).Comes (fun _ o => r = .error (Cause.rejected o)) []
  | .panicked p => r = .error (.die p.defect)

/-- A future that settles as predicted goes on doing so when it is polled. -/
theorem Future.Settles.poll {onReject : Value → Action (Cause Value)} {r : Except (Cause Value) Payload} {f : Future}
    (h : f.Settles onReject r) (op : OperationId) (w : World) : (f.poll op w).1.Settles onReject r := by
  induction f generalizing w with
  | settle r' => cases r' <;> exact h
  | panic p => exact h
  | never => trivial
  | ask c next ih => exact ih _ (h _) _
  | subscribe t l next ih => exact ih _ (h _) _
  | register op' l next ih =>
    simp only [Future.poll]
    split
    · exact ih h _
    · exact ih h _
  | sleep ms next ih =>
    simp only [Future.poll]
    split
    · exact ih h w
    · exact h
  | sleepUntil t next ih =>
    simp only [Future.poll]
    split
    · exact ih h w
    · exact h
  | yield n next ih =>
    cases n with
    | zero => exact ih h w
    | succ n => exact h
  | wait s next ih =>
    simp only [Future.poll]
    split
    · exact ih h w
    · exact h

/-- What is made of a rejection. -/
theorem Awaited.rejected {onReject : Value → Action (Cause Value)} {x : Value} {r : Except (Cause Value) Payload}
    (h : (onReject x).Comes (fun _ o => r = .error (Cause.rejected o)) []) (w : World) :
    ∃ c, r = .error c ∧ Node.built ((do return Node.fail (← onReject x) : Action Node).run w).1 = .fail c := by
  have hmap : (do return Node.fail (← onReject x) : Action Node).Comes
      (fun _ o => ∃ c, r = .error c ∧ Node.built o = .fail c) [] :=
    h.map (fun _ c hc => ⟨c, hc, rfl⟩) fun _ p hp => ⟨.die p.defect, hp, rfl⟩
  obtain ⟨_, hc⟩ := hmap.outcome w
  exact hc

/-- Polling an awaited future. -/
theorem Interpreter.pollAwaited_follows {m : Interpreter} {own : CellId → Prop} {w : World} {H : Heap} {a : Awaited}
    {r : Except (Cause Value) Payload} {κ : Handler} (hm : m.Steady (.value .unit) w) (hw : w.Watches m.token a.op)
    (ho : w.isInterrupted m.token = false) (ha : a.future.Settles a.onReject r)
    (hs : Frame.Stack m.env m.frames.frames H κ) (hH : H.Stands own w)
    (hspare : ∀ c, own c → (m.pollAwaited a w).world.cells[c]? = w.cells[c]?) :
    (m.pollAwaited a w).Follows own w H (κ (.ofExcept r)) := by
  have hlater := m.pollAwaited_later a w
  have hm' := hm.later hlater
  have hw' := hlater.watches hw
  have hbecomes := Heap.Becomes.of_same hH hspare
  have hfired : w.isFired a.op = false := by
    cases hf : w.isFired a.op with
    | false => rfl
    | true =>
      rw [hw.quiet hf] at ho
      nomatch ho
  have hpoll := ha.poll a.op (w.attend a.op)
  rcases hp : a.future.poll a.op (w.attend a.op) with ⟨rest | (e | p) | p, v⟩ <;>
    simp only [pollAwaited, hfired, hp, Bool.false_eq_true, if_false] at hm' hw' hbecomes hpoll ⊢
  · exact ⟨H, .awaiting hm' hw' hpoll hs rfl, hbecomes⟩
  · obtain ⟨c, rfl, hbuilt⟩ := Awaited.rejected hpoll ((v.unsubscribe a.stopper).forget a.op)
    have hleaf : (Plan.fail c).Realized [] (.fail c) := rfl
    have hn : Node.LeadsTo m.env _ _ _ (κ (.failure c)) := .onTop (.plan hleaf) hs
    unfold goOn at hm' hbecomes ⊢
    rw [guarded_eq] at hm' hbecomes ⊢
    rw [hbuilt] at *
    exact ⟨[] ++ H, .next hm' hn, hbecomes⟩
  · obtain rfl := hpoll
    have hleaf : (Plan.succeed p).Realized [] (.succeed p) := rfl
    have hn : Node.LeadsTo m.env _ _ _ (κ (.value p)) := .onTop (.plan hleaf) hs
    exact ⟨[] ++ H, .next hm' hn, hbecomes⟩
  · obtain rfl := hpoll
    have hleaf : (Plan.fail (.die p.defect)).Realized [] (.fail (.die p.defect)) := rfl
    have hn : Node.LeadsTo m.env _ _ _ (κ (.failure (.die p.defect))) := .onTop (.plan hleaf) hs
    exact ⟨[] ++ H, .next hm' hn, hbecomes⟩

/-! ## Joining a group -/

/-- Unlinking a group trips no token. -/
theorem World.isInterrupted_unlink (g : Group) (w : World) (t : TokenId) : (g.unlink w).isInterrupted t = w.isInterrupted t := by
  unfold Group.unlink
  split
  · exact World.isInterrupted_unsubscribe w _ t
  · rfl

/-- Unlinking a group touches no cells. -/
theorem Group.unlink_cells (g : Group) (w : World) : (g.unlink w).cells = w.cells := by
  unfold Group.unlink
  split <;> rfl

/-- Branches that have all succeeded. -/
theorem Verdict.ofExits_success (values : List Payload) : Verdict.ofExits (values.map .success) = .succeeded values := by
  have htrue : trueFailures (values.map .success) = [] := by
    simp [trueFailures, List.filterMap_map, Function.comp_def, Exit.cause?]
  have hany : (values.map Exit.success : List (Exit Value Payload)).any Exit.isFailure = false := by
    simp [Exit.isFailure, Exit.isSuccess]
  unfold Verdict.ofExits
  rw [htrue]
  simp [hany, List.filterMap_map]

namespace Branch.AllFollow

variable {w : World} {H : Heap} {values : Option (List Payload)}

/-- When all branches have finished, their values are there. -/
theorem finished_values {exits : List (Exit Value Payload)} (h : AllFollow w (exits.map .finished) H values) :
    ∃ ps, values = some ps ∧ exits = ps.map .success := by
  induction exits generalizing H values with
  | nil =>
    cases h
    exact ⟨[], rfl, rfl⟩
  | cons e exits ih =>
    cases h with
    | finished hr hv =>
      obtain ⟨ps, rfl, rfl⟩ := ih hr
      exact ⟨_ :: ps, hv, rfl⟩

/-- One running branch may be replaced by another one that comes to the same, or by the value that it comes to. -/
theorem split {before after : List Branch} {q : Process} (h : AllFollow w (before ++ .running q :: after) H values) :
    ∃ A Hq B y, H = A ++ Hq ++ B ∧ q.Follows w Hq y ∧ ∀ w', w.Later w' →
      (∀ q' Hq', q'.Follows w' Hq' y → AllFollow w' (before ++ .running q' :: after) (A ++ Hq' ++ B) values) ∧
        ∀ p, y = some (.success p) → AllFollow w' (before ++ .finished (.success p) :: after) (A ++ B) values := by
  induction before generalizing H values with
  | nil =>
    cases h with
    | @running _ _ _ H₁ H₂ y vs _ hp hr hH hv =>
      refine ⟨[], H₁, H₂, y, hH, hp, fun w' hl => ⟨fun q' Hq' hq' => .running hq' (hr.later hl) rfl hv, fun p hy => ?_⟩⟩
      subst hy
      exact .finished (hr.later hl) hv
  | cons b before ih =>
    cases h with
    | @running p _ _ H₁ H₂ y vs _ hp hr hH hv =>
      obtain ⟨A, Hq, B, y', rfl, hq, hrep⟩ := ih hr
      refine ⟨H₁ ++ A, Hq, B, y', by simp [hH], hq, fun w' hl => ?_⟩
      obtain ⟨hrun, hfin⟩ := hrep w' hl
      exact ⟨fun q' Hq' hq' => .running (hp.later hl) (hrun q' Hq' hq') (by simp) hv,
        fun p' hy => .running (hp.later hl) (hfin p' hy) (by simp) hv⟩
    | @finished p _ _ vs _ hr hv =>
      obtain ⟨A, Hq, B, y', rfl, hq, hrep⟩ := ih hr
      refine ⟨A, Hq, B, y', rfl, hq, fun w' hl => ?_⟩
      obtain ⟨hrun, hfin⟩ := hrep w' hl
      exact ⟨fun q' Hq' hq' => .finished (hrun q' Hq' hq') hv, fun p' hy => .finished (hfin p' hy) hv⟩

end Branch.AllFollow

/-- The end of a round: the group goes on, or the values of its branches are there. -/
theorem Interpreter.endRound_follows {m : Interpreter} {own : CellId → Prop} {w : World} {g : Group} {branches : List Branch}
    {H₁ H₂ : Heap} {values : Option (List Payload)} {κ : Handler} (hm : m.Steady (.value .unit) w)
    (ho : w.isInterrupted m.token = false) (hg : g.failed = false) (hb : Branch.AllFollow w branches H₁ values)
    (hs : Frame.Stack m.env m.frames.frames H₂ κ) (hH : (H₁ ++ H₂).Stands own w) :
    (m.endRound g branches w).Follows own w (H₁ ++ H₂) (values.bind fun values => κ (.value (.list values))) := by
  rw [endRound_eq, g.afterRound_of_not_failed hg]
  split
  · rename_i hpending
    rw [Branch.eq_map_finished hpending] at hb
    obtain ⟨ps, rfl, hexits⟩ := hb.finished_values
    rw [joined_eq, World.isInterrupted_unlink, ho, hexits, Verdict.ofExits_success]
    have hleaf : (Plan.succeed (.list ps)).Realized [] (.succeed (.list ps)) := rfl
    have hn : Node.LeadsTo m.env _ _ _ (κ (.value (.list ps))) := .onTop (.plan hleaf) hs
    exact ⟨[] ++ H₂, .next (hm.later (g.unlink_later w)) hn,
      ((Heap.Becomes.refl hH).sublist (List.sublist_append_right _ _)).cells rfl (g.unlink_cells w)⟩
  · exact ⟨H₁ ++ H₂, .joining hm rfl hb hs rfl rfl, .refl hH⟩

/-! ## One turn -/

/-- In this turn others have their say: a future is polled, or listeners run because the process gives itself up. -/
def Process.letsOthersIn : Process → Bool
  | .counted _ .interrupt | .awaiting _ _ => true
  | .finalizing _ _ child => child.letsOthersIn
  | .joining _ _ _ (.running q :: _) => q.letsOthersIn
  | _ => false

/-- In a turn nobody else touches the cells that are owned, and the cells that the process makes are among these. -/
structure Process.Secluded (own : CellId → Prop) (p : Process) (w : World) : Prop where
  spared : p.letsOthersIn = true → ∀ c, own c → (p.turn w).world.cells[c]? = w.cells[c]?
  made : p.letsOthersIn = false → ∀ c, w.cells.size ≤ c → c < (p.turn w).world.cells.size → own c

/-- No branch of a group fails in the course of some turns. -/
def History.BranchesSucceed (h : History) : Prop :=
  ∀ y ∈ h.turns, ∀ i e, .recorded i e ∈ y.1.branchEvents y.2 → e.isSuccess = true

theorem History.BranchesSucceed.mono {h h' : History} (hs : h.BranchesSucceed) (hsub : ∀ y ∈ h'.turns, y ∈ h.turns) :
    h'.BranchesSucceed := fun y hy => hs y (hsub y hy)

/-- The turns that one turn consists of are those of the history of that turn alone. -/
theorem History.turns_singleton (p : Process) (w : World) : History.turns [(p, w)] = p.turns w := by
  simp [History.turns]

/-- A turn of a branch. -/
theorem Process.Follows.turn_branch {own : CellId → Prop} {w : World} {H : Heap} {x : Option (Exit Value Payload)}
    {m : Interpreter} {g : Group} {seen rest : List Branch} {q : Process}
    (h : (Process.joining m g seen (.running q :: rest)).Follows w H x) (hH : H.Stands own w)
    (ih : ∀ {H x}, q.Follows w H x → H.Stands own w → (q.turn w).Follows own w H x)
    (hb : History.BranchesSucceed [(.joining m g seen (.running q :: rest), w)]) :
    ((Process.joining m g seen (.running q :: rest)).turn w).Follows own w H x := by
  cases h with
  | @joining _ _ _ _ _ H₁ H₂ _ values κ hm hg hall hs hH' hx =>
    obtain ⟨A, Hq, B, y, rfl, hq, hrep⟩ := hall.split
    have hlater := q.turn_later w
    obtain ⟨hrun, hfin⟩ := hrep _ hlater
    have hheap : ∀ X, A ++ X ++ B ++ H₂ = A ++ X ++ (B ++ H₂) := fun X => by simp
    rw [hH', hheap] at hH
    obtain ⟨Hq', hq', hbecomes⟩ := ih hq (Heap.stands_append.mp (Heap.stands_append.mp hH).1).2.1
    have hwhole := hbecomes.framed hH
    rw [← hheap, ← hheap, ← hH'] at hwhole
    have hm' := hm.later hlater
    have hevent : ∀ e, (q.turn w).process = .settled e → e.isSuccess = true := by
      intro e he
      refine hb (.joining m g seen (.running q :: rest), w) ?_ seen.length e ?_
      · rw [History.turns_singleton]
        simp only [Process.turns]
        exact List.mem_cons_self
      · simp only [Process.branchEvents, he, Process.exit?]
        simp
    simp only [Process.turn]
    split
    · rename_i e he
      rw [he] at hq'
      have hsuccess := hevent e he
      cases hq' with
      | settled hy =>
        cases e with
        | failure c => cases hsuccess
        | success p =>
          have hall' : Branch.AllFollow (q.turn w).world ((Branch.finished (.success p) :: seen).reverse ++ rest) (A ++ B)
              values := by simpa using hfin p hy
          have hfailed : (g.failed || (Exit.success p : Exit Value Payload).isFailure) = false := by rw [hg]; rfl
          exact ⟨A ++ B ++ H₂, .joining hm' hfailed hall' hs rfl hx, hwhole.sublist (by simp)⟩
    · exact ⟨_, .joining hm' hg (hrun _ Hq' hq') hs rfl hx, hwhole⟩
    · exact ⟨_, .joining hm' hg (by simpa using hrun _ Hq' hq') hs rfl hx, hwhole⟩

/-- A turn of a finalizer. -/
theorem Process.Follows.turn_finalizer {own : CellId → Prop} {w : World} {H : Heap} {x : Option (Exit Value Payload)}
    {m : Interpreter} {o : Outcome} {child : Process} (h : (Process.finalizing m o child).Follows w H x)
    (hH : H.Stands own w) (hexit : child.exit? = none)
    (ih : ∀ {H x}, child.Follows w H x → H.Stands own w → (child.turn w).Follows own w H x) :
    ((Process.finalizing m o child).turn w).Follows own w H x := by
  cases h with
  | finalizing hm hc hs hH' hx =>
    subst hH'
    obtain ⟨H', hp, hbecomes⟩ := ih hc (Heap.stands_append.mp hH).1
    rw [turn_finalizing m o hexit]
    exact ⟨_, .finalizing (hm.later (child.turn_later w)) hp hs rfl hx, hbecomes.front hH⟩

/-- A finalizer has settled. -/
theorem Process.Follows.turn_finalized {own : CellId → Prop} {w : World} {H : Heap} {x : Option (Exit Value Payload)}
    {m : Interpreter} {o : Outcome} {e : Exit Value Payload} (h : (Process.finalizing m o (.settled e)).Follows w H x)
    (hH : H.Stands own w) : ((Process.finalizing m o (.settled e)).turn w).Follows own w H x := by
  cases h with
  | finalizing hm hc hs hH' hx =>
    subst hH' hx
    cases hc with
    | settled hy =>
      subst hy
      obtain ⟨H', hp, hbecomes⟩ := Interpreter.finalized_follows hm hs (Heap.stands_append.mp hH).2.1
      exact ⟨H', hp, hbecomes.of_part fun y hy => List.mem_append_right _ hy⟩

/-- A turn of a process that is left alone leads to the same exit. -/
theorem Process.Follows.turn {own : CellId → Prop} {w : World} {p : Process} {H : Heap} {x : Option (Exit Value Payload)}
    (h : p.Follows w H x) (hw : w.Sound) (hH : H.Stands own w) (hu : p.Undisturbed w)
    (hb : History.BranchesSucceed [(p, w)]) (hsec : p.Secluded own w) : (p.turn w).Follows own w H x := by
  match p, h with
  | .next m n, h =>
    cases h with
    | next hm hn =>
      obtain ⟨hturn, halike⟩ := turn_next m n w
      have hlater := turn_later (.next m n) w
      refine ⟨H, ?_, (Heap.Becomes.refl hH).cells rfl halike.cells⟩
      rw [hturn]
      exact .counted ⟨(hm.later hlater).token, hm.suppressed⟩ hn
  | .counted m n, h =>
    cases h with
    | counted hm hn =>
      have hturn := turn_counted hu n
      rw [hturn]
      refine Interpreter.take_follows hm hw hu hn hH (fun hi => ?_) fun hi => ?_
      · subst hi
        rw [← hturn]
        exact hsec.spared rfl
      · rw [← hturn]
        exact hsec.made (by cases n <;> first | rfl | exact absurd rfl hi)
  | .popping m o, h =>
    cases h with
    | popping hm hs hx =>
      subst hx
      exact Interpreter.pop_follows hm hs hH (hsec.made rfl)
  | .finalizing m o child, h =>
    cases hexit : child.exit? with
    | some e =>
      obtain rfl := exit?_eq_some hexit
      exact h.turn_finalized hH
    | none =>
      have hworld : (Process.turn (.finalizing m o child) w).world = (child.turn w).world := by
        rw [turn_finalizing m o hexit]
      have hsec' : child.Secluded own w := ⟨fun hl => hworld ▸ hsec.spared hl, fun hl => hworld ▸ hsec.made hl⟩
      have hb' : History.BranchesSucceed [(child, w)] := hb.mono fun y hy => by
        rw [History.turns_singleton] at hy ⊢
        exact List.mem_cons_of_mem _ hy
      exact h.turn_finalizer hH hexit fun hc hH => turn hc hw hH hu hb' hsec'
  | .awaiting m a, h =>
    cases h with
    | awaiting hm hwatch ha hs hx =>
      subst hx
      exact Interpreter.pollAwaited_follows hm hwatch hu ha hs hH (hsec.spared rfl)
  | .joining m g seen [], h =>
    cases h with
    | joining hm hg hall hs hH' hx =>
      subst hH' hx
      rw [List.append_nil] at hall
      exact Interpreter.endRound_follows hm hu hg hall hs hH
  | .joining m g seen (.finished e :: rest), h =>
    cases h with
    | @joining _ _ _ _ _ H₁ H₂ _ values κ hm hg hall hs hH' hx =>
      have hall' : Branch.AllFollow w ((Branch.finished e :: seen).reverse ++ rest) H₁ values := by simpa using hall
      exact ⟨H, .joining hm hg hall' hs hH' hx, .refl hH⟩
  | .joining m g seen (.running q :: rest), h =>
    have hworld : (Process.turn (.joining m g seen (.running q :: rest)) w).world = (q.turn w).world := by
      simp only [Process.turn]
      split <;> rfl
    have hsec' : q.Secluded own w :=
      ⟨fun hl => hworld ▸ hsec.spared hl, fun hl => hworld ▸ hsec.made hl⟩
    have hb' : History.BranchesSucceed [(q, w)] := hb.mono fun y hy => by
      rw [History.turns_singleton] at hy ⊢
      exact List.mem_cons_of_mem _ hy
    exact h.turn_branch hH (fun hq hH => turn hq hw hH hu hb' hsec') hb
  | .settled e, h =>
    cases h with
    | settled hx => exact ⟨H, .settled hx, .refl hH⟩

end Interruptible
