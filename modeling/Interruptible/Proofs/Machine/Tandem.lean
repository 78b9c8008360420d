import Interruptible.Proofs.Effect.Counterparts
import Interruptible.Proofs.Machine.Frames
import Interruptible.Proofs.World.Tandem

/-!
# Processes in worlds that match

Two processes match if they are in the same state up to names (`Process.Matches`). In worlds that match each of them takes the
turn that the other one takes: the turns go in step and leave processes that match (`Process.Matches.turn`). So a process
depends on nothing that it has no name for, and changes nothing else.
-/

namespace Interruptible

/-! ## States that are the same up to names -/

/-- Frames that are the same up to names. -/
inductive Frame.Matches (κ : Counterparts) : Frame → Frame → Prop
  | apply {k k' : Payload → Action Node} (hk : ∀ p, (k p).Matches Node.Matches κ (k' p)) : Matches κ (.apply k) (.apply k')
  | fold {r r' : Cause Value → Action Node} {k k' : Payload → Action Node}
      (hr : ∀ c, (r c).Matches Node.Matches κ (r' c)) (hk : ∀ p, (k p).Matches Node.Matches κ (k' p)) :
    Matches κ (.fold r k) (.fold r' k')
  | finalize {n n' : Node} (hn : n.Matches κ n') : Matches κ (.finalize n) (.finalize n')
  | restore (env : Environment) : Matches κ (.restore env) (.restore env)

/-- Interpreters that are the same up to names. -/
structure Interpreter.Matches (κ : Counterparts) (m m' : Interpreter) : Prop where
  frames : List.Forall₂ (Frame.Matches κ) m.frames.frames m'.frames.frames
  env : m.env = m'.env
  token : κ.ids .token m.token m'.token
  interval : m.interval = m'.interval
  instructions : m.instructions = m'.instructions
  suppressed : m.suppressed = m'.suppressed

/-- Host futures that are the same up to names, and are awaited in the same way. -/
structure Awaited.Matches (κ : Counterparts) (a a' : Awaited) : Prop where
  op : κ.ids .operation a.op a'.op
  stopper : a.stopper.Matches κ a'.stopper
  future : a.future.Matches κ a'.future
  onReject : ∀ x, (a.onReject x).Matches (fun _ => Eq) κ (a'.onReject x)

/-- Groups with tokens that are counterparts. -/
structure Group.Matches (κ : Counterparts) (g g' : Group) : Prop where
  token : κ.ids .token g.token g'.token
  link : Option.Rel (Subscription.Matches κ) g.link g'.link
  failed : g.failed = g'.failed

mutual
/-- Processes that are in the same state up to names. -/
inductive Process.Matches (κ : Counterparts) : Process → Process → Prop
  | next {m m' : Interpreter} {n n' : Node} (hm : m.Matches κ m') (hn : n.Matches κ n') : Process.Matches κ (.next m n) (.next m' n')
  | counted {m m' : Interpreter} {n n' : Node} (hm : m.Matches κ m') (hn : n.Matches κ n') :
    Process.Matches κ (.counted m n) (.counted m' n')
  | popping {m m' : Interpreter} (hm : m.Matches κ m') (o : Outcome) : Process.Matches κ (.popping m o) (.popping m' o)
  | finalizing {m m' : Interpreter} {p p' : Process} (hm : m.Matches κ m') (o : Outcome) (hp : Process.Matches κ p p') :
    Process.Matches κ (.finalizing m o p) (.finalizing m' o p')
  | awaiting {m m' : Interpreter} {a a' : Awaited} (hm : m.Matches κ m') (ha : a.Matches κ a') :
    Process.Matches κ (.awaiting m a) (.awaiting m' a')
  | joining {m m' : Interpreter} {g g' : Group} {seen seen' rest rest' : List Branch} (hm : m.Matches κ m')
      (hg : g.Matches κ g') (hs : List.Forall₂ (Branch.Matches κ) seen seen')
      (hr : List.Forall₂ (Branch.Matches κ) rest rest') : Process.Matches κ (.joining m g seen rest) (.joining m' g' seen' rest')
  | settled (e : Exit Value Payload) : Process.Matches κ (.settled e) (.settled e)
/-- Branches that are the same up to names. -/
inductive Branch.Matches (κ : Counterparts) : Branch → Branch → Prop
  | running {p p' : Process} (hp : Process.Matches κ p p') : Branch.Matches κ (.running p) (.running p')
  | finished (e : Exit Value Payload) : Branch.Matches κ (.finished e) (.finished e)
end

section

variable {κ κ' : Counterparts} (hκ : κ.Sub κ')

include hκ

theorem Frame.Matches.mono {f f' : Frame} (h : f.Matches κ f') : f.Matches κ' f' := by
  cases h with
  | apply hk => exact .apply fun p => (hk p).mono_node hκ
  | fold hr hk => exact .fold (fun c => (hr c).mono_node hκ) fun p => (hk p).mono_node hκ
  | finalize hn => exact .finalize (hn.mono hκ)
  | restore env => exact .restore env

theorem Interpreter.Matches.mono {m m' : Interpreter} (h : m.Matches κ m') : m.Matches κ' m' where
  frames := h.frames.imp fun _ _ hf => hf.mono hκ
  env := h.env
  token := hκ.ids _ _ _ h.token
  interval := h.interval
  instructions := h.instructions
  suppressed := h.suppressed

theorem Awaited.Matches.mono {a a' : Awaited} (h : a.Matches κ a') : a.Matches κ' a' where
  op := hκ.ids _ _ _ h.op
  stopper := h.stopper.mono hκ
  future := h.future.mono hκ
  onReject x := (h.onReject x).mono_eq hκ

theorem Group.Matches.mono {g g' : Group} (h : g.Matches κ g') : g.Matches κ' g' where
  token := hκ.ids _ _ _ h.token
  link := Subscription.Matches.mono_option hκ h.link
  failed := h.failed

end

mutual
theorem Process.Matches.mono {κ κ' : Counterparts} {p p' : Process} (hκ : κ.Sub κ') : p.Matches κ p' → p.Matches κ' p'
  | .next hm hn => .next (hm.mono hκ) (hn.mono hκ)
  | .counted hm hn => .counted (hm.mono hκ) (hn.mono hκ)
  | .popping hm o => .popping (hm.mono hκ) o
  | .finalizing hm o hp => .finalizing (hm.mono hκ) o (hp.mono hκ)
  | .awaiting hm ha => .awaiting (hm.mono hκ) (ha.mono hκ)
  | .joining hm hg hs hr => .joining (hm.mono hκ) (hg.mono hκ) (Branch.Matches.mono_list hκ hs) (Branch.Matches.mono_list hκ hr)
  | .settled e => .settled e
theorem Branch.Matches.mono {κ κ' : Counterparts} {b b' : Branch} (hκ : κ.Sub κ') : b.Matches κ b' → b.Matches κ' b'
  | .running hp => .running (hp.mono hκ)
  | .finished e => .finished e
/-- Lists of branches that match do so with more counterparts. -/
theorem Branch.Matches.mono_list {κ κ' : Counterparts} {bs bs' : List Branch} (hκ : κ.Sub κ') :
    List.Forall₂ (Branch.Matches κ) bs bs' → List.Forall₂ (Branch.Matches κ') bs bs'
  | .nil => .nil
  | .cons hb hbs => .cons (hb.mono hκ) (Branch.Matches.mono_list hκ hbs)
end

/-- Processes that match settle together, with the same exit. -/
theorem Process.Matches.exit?_eq {κ : Counterparts} {p p' : Process} (h : p.Matches κ p') : p.exit? = p'.exit? := by
  cases h <;> rfl

/-- Branches that match settle together, with the same exit. -/
theorem Branch.Matches.exit?_eq {κ : Counterparts} {b b' : Branch} (h : b.Matches κ b') : b.exit? = b'.exit? := by
  cases h <;> rfl

/-- Matching branches have finished with the same exits. -/
theorem Branch.exits_eq {κ : Counterparts} {bs bs' : List Branch} (h : List.Forall₂ (Branch.Matches κ) bs bs') :
    bs.filterMap Branch.exit? = bs'.filterMap Branch.exit? := by
  induction h with
  | nil => rfl
  | cons hb _ ih => rw [List.filterMap_cons, List.filterMap_cons, hb.exit?_eq, ih]

namespace Interpreter.Matches

variable {κ : Counterparts} {m m' : Interpreter}

/-- Interpreters that match do so with frames that match on top. -/
theorem push (h : m.Matches κ m') {f f' : Frame} (hf : f.Matches κ f') : (m.push f).Matches κ (m'.push f') :=
  { h with frames := .cons hf h.frames }

/-- Interpreters that match come to the same exit. -/
theorem exit_eq (h : m.Matches κ m') (o : Outcome) : m.exit o = m'.exit o := by
  cases o with
  | interruption => simp only [Interpreter.exit, h.suppressed]
  | _ => rfl

/-- An interpreter that starts under a token of its own. -/
theorem start (h : m.Matches κ m') {n n' : Node} {t t' : TokenId} (hn : n.Matches κ n') (ht : κ.ids .token t t') :
    (Process.start n m.env t m.interval).Matches κ (.start n' m'.env t' m'.interval) :=
  .next ⟨.nil, h.env, ht, h.interval, rfl, rfl⟩ hn

end Interpreter.Matches

/-! ## Turns -/

/-- Two turns have gone in step, at the same pace, and have left processes that match. -/
structure Turn.Paired (κ : Counterparts) (w w' : World) (t t' : Turn) : Prop where
  step : World.InStep κ w w' t.world t'.world
  process : t.process.Matches (κ.grown w w' t.world) t'.process
  pace : t.pace = t'.pace

namespace Turn.Paired

variable {κ : Counterparts} {w w' v v' : World} {t t' : Turn}

/-- A turn after a step. -/
theorem after (h : World.InStep κ w w' v v') (hf : ∀ κ', κ.Sub κ' → v.Matches κ' v' → Turn.Paired κ' v v' t t') :
    Turn.Paired κ w w' t t' := by
  obtain ⟨hstep, hprocess, hpace⟩ := hf _ (κ.sub_grown w w' v) h.same
  refine ⟨h.trans hstep, ?_, hpace⟩
  rwa [Counterparts.grown_grown h.grows hstep.grows h.evenly] at hprocess

/-- A turn after a computation. -/
theorem bind {α β : Type} {A : Counterparts → α → β → Prop} {x : α × World} {y : β × World}
    (h : World.Paired κ w w' A x y)
    (hf : ∀ κ', κ.Sub κ' → A κ' x.1 y.1 → x.2.Matches κ' y.2 → Turn.Paired κ' x.2 y.2 t t') : Turn.Paired κ w w' t t' := by
  obtain ⟨hstep, hprocess, hpace⟩ := hf _ (κ.sub_grown w w' x.2) h.answer h.step.same
  refine ⟨h.step.trans hstep, ?_, hpace⟩
  rwa [Counterparts.grown_grown h.step.grows hstep.grows h.step.evenly] at hprocess

/-- A turn that does not change the world. -/
theorem of_matches (hw : w.Matches κ w') {p p' : Process} (hp : p.Matches κ p') (pace : Pace) :
    Turn.Paired κ w w' ⟨p, w, pace⟩ ⟨p', w', pace⟩ :=
  ⟨.refl hw, hp.mono (κ.sub_grown w w' w), rfl⟩

end Turn.Paired

namespace Interpreter

/-- Interpreters that match find themselves interrupted in step. -/
theorem interrupted_paired {κ : Counterparts} {w w' : World} (hw : w.Matches κ w') {m m' : Interpreter}
    (hm : m.Matches κ m') : Turn.Paired κ w w' (m.interrupted w) (m'.interrupted w') :=
  .after (.record hw (.unwinding m.frames.height m.instructions) (.unwinding m'.frames.height m'.instructions))
    fun _ hκ hw' => .of_matches hw' (.popping (hm.mono hκ) .interruption) .busy

/-- Operations have been started: both are awaited, or neither because the token has been tripped. -/
theorem started_paired {κ : Counterparts} {w w' : World} {m m' : Interpreter} (hm : m.Matches κ m')
    (hw : w.newOperation.2.Matches κ w'.newOperation.2) (ho : κ.ids .operation w.newOperation.1 w'.newOperation.1)
    {f f' : OperationId → Action Future} {r r' : Value → Action (Cause Value)}
    (hf : (f w.newOperation.1).Matches Future.Matches κ (f' w'.newOperation.1))
    (hr : ∀ x, (r x).Matches (fun _ => Eq) κ (r' x)) :
    Turn.Paired κ w.newOperation.2 w'.newOperation.2 (m.await f r w) (m'.await f' r' w') := by
  have hreact := World.react_paired hw hm.token (.stop ho)
  unfold await
  dsimp only
  rcases hv : w.newOperation.2.react m.token (.stop w.newOperation.1) with ⟨_ | s, v⟩ <;>
    rcases hv' : w'.newOperation.2.react m'.token (.stop w'.newOperation.1) with ⟨_ | s', v'⟩ <;> rw [hv, hv'] at hreact
  · refine .bind hreact fun κ₁ hκ₁ _ hw₁ => .after (.record hw₁ .futureSkipped .futureSkipped) fun κ₂ hκ₂ hw₂ => ?_
    exact interrupted_paired hw₂ (hm.mono (hκ₁.trans hκ₂))
  · nomatch hreact.answer
  · nomatch hreact.answer
  · refine .bind hreact fun κ₁ hκ₁ hs hw₁ => ?_
    have hs : s.Matches κ₁ s' := by
      cases hs with
      | some hs => exact hs
    have hrun := Action.run_paired (Q := Future.Matches) (fun _ _ _ _ hκ h => h.mono hκ) hf hκ₁ hw₁
    dsimp only at hrun ⊢
    rcases hu : (f w.newOperation.1).run v with ⟨x, u⟩
    rcases hu' : (f' w'.newOperation.1).run v' with ⟨x', u'⟩
    rw [hu, hu'] at hrun
    refine .bind hrun fun κ₂ hκ₂ hx hw₂ => ?_
    have hκ := hκ₁.trans hκ₂
    cases hx with
    | ok hfuture =>
      exact .of_matches hw₂ (.awaiting (hm.mono hκ) ⟨hκ.ids _ _ _ ho, hs.mono hκ₂, hfuture,
        fun x => (hr x).mono_eq hκ⟩) .busy
    | error p =>
      exact .after (World.unsubscribe_inStep hw₂ (hs.mono hκ₂)) fun κ₃ hκ₃ hw₃ =>
        .of_matches hw₃ (.next (hm.mono (hκ.trans hκ₃)) (.fail κ₃ _)) .busy

end Interpreter

section

variable {κ : Counterparts} {w w' : World} (hw : w.Matches κ w')

include hw

/-- Matching callbacks build matching nodes, or panic alike. -/
theorem guarded_paired {a a' : Action Node} (ha : a.Matches Node.Matches κ a') :
    World.Paired κ w w' Node.Matches (guarded a w) (guarded a' w') := by
  have hrun := Action.run_paired (Q := Node.Matches) (fun _ _ _ _ hκ hn => hn.mono hκ) ha (.refl κ) hw
  unfold guarded
  rcases hv : a.run w with ⟨r, v⟩
  rcases hv' : a'.run w' with ⟨r', v'⟩
  rw [hv, hv'] at hrun
  obtain ⟨hstep, hanswer⟩ := hrun
  cases hanswer with
  | ok hn => exact ⟨hstep, hn⟩
  | error p => exact ⟨hstep, .fail _ _⟩

/-- Thunks that match are evaluated in step, and panic together. -/
theorem evaluate_paired {a a' : Action (Except (Cause Value) Payload)} (ha : a.Matches (fun _ => Eq) κ a') :
    World.Paired κ w w' (fun _ => Eq) (evaluate a w) (evaluate a' w') := by
  have hrun := Action.run_paired (Q := fun _ => Eq) (fun _ _ _ _ _ h => h) ha (.refl κ) hw
  unfold evaluate
  rcases hv : a.run w with ⟨r, v⟩
  rcases hv' : a'.run w' with ⟨r', v'⟩
  rw [hv, hv'] at hrun
  obtain ⟨hstep, hanswer⟩ := hrun
  cases hanswer with
  | ok hn => exact ⟨hstep, hn⟩
  | error p => exact ⟨hstep, rfl⟩

namespace Interpreter

variable {m m' : Interpreter} (hm : m.Matches κ m')

include hm

/-- Interpreters go on in step with what code gives them. -/
theorem goOn_paired {a a' : Action Node} (ha : a.Matches Node.Matches κ a') :
    Turn.Paired κ w w' (m.goOn a w) (m'.goOn a' w') :=
  .bind (guarded_paired hw ha) fun _ hκ hn hw' => .of_matches hw' (.next (hm.mono hκ) hn) .busy

/-- Groups that match start in step. -/
theorem fanOut_paired {ns ns' : List Node} (hns : List.Forall₂ (Node.Matches κ) ns ns') :
    Turn.Paired κ w w' (m.fanOut ns w) (m'.fanOut ns' w') := by
  refine .bind (World.newToken_paired hw) fun κ₁ hκ₁ ht hw₁ => ?_
  refine .bind (World.react_paired hw₁ (hκ₁.ids _ _ _ hm.token) (.forward ht)) fun κ₂ hκ₂ hlink hw₂ => ?_
  refine ⟨.record hw₂ _ _, ?_, rfl⟩
  have hκ₃ := κ₂.sub_grown (w.newToken.2.react m.token (.forward w.newToken.1)).2
    (w'.newToken.2.react m'.token (.forward w'.newToken.1)).2 (m.fanOut ns w).world
  have hκ := hκ₁.trans (hκ₂.trans hκ₃)
  have ht' := (hκ₂.trans hκ₃).ids _ _ _ ht
  refine .joining (hm.mono hκ) ⟨ht', Subscription.Matches.mono_option hκ₃ hlink, rfl⟩ .nil ?_
  refine List.forall₂_map_left_iff.mpr (List.forall₂_map_right_iff.mpr (hns.imp fun n n' hn => .running ?_))
  exact (hm.mono hκ).start (hn.mono hκ) ht'

/-- Futures that match are awaited in step: both factories panic, or none does. -/
theorem await_paired {f f' : OperationId → Action Future} {r r' : Value → Action (Cause Value)}
    (hf : ∀ κ' o o', κ.Sub κ' → κ'.ids .operation o o' → (f o).Matches Future.Matches κ' (f' o'))
    (hr : ∀ x, (r x).Matches (fun _ => Eq) κ (r' x)) : Turn.Paired κ w w' (m.await f r w) (m'.await f' r' w') :=
  .bind (World.newOperation_paired hw) fun κ' hκ ho hw' =>
    started_paired (hm.mono hκ) hw' ho (hf κ' _ _ hκ ho) fun x => (hr x).mono_eq hκ

/-- Matching nodes are taken in step. -/
theorem take_paired {n n' : Node} (hn : n.Matches κ n') : Turn.Paired κ w w' (m.take n w) (m'.take n' w') := by
  have hnote := World.InStep.record hw (.step n.kind m.frames.height) (.step n'.kind m'.frames.height)
  unfold take
  refine .after hnote fun κ' hκ hw' => ?_
  have hm' := hm.mono hκ
  cases hn with
  | succeed p => exact .of_matches hw' (.popping hm' _) .busy
  | @succeedLazy _ a a' h =>
    have hrun := evaluate_paired hw' (h.mono_eq hκ)
    dsimp only
    generalize evaluate a _ = x at hrun ⊢
    generalize evaluate a' _ = x' at hrun ⊢
    obtain ⟨r, v⟩ := x
    obtain ⟨r', v'⟩ := x'
    obtain rfl : r = r' := hrun.answer
    refine .after hrun.step fun κ₁ hκ₁ hw₁ => ?_
    cases r with
    | ok p => exact .of_matches hw₁ (.next (hm'.mono hκ₁) (.succeed κ₁ p)) .busy
    | error c => exact .of_matches hw₁ (.next (hm'.mono hκ₁) (.fail κ₁ c)) .busy
  | fail c => exact .of_matches hw' (.popping hm' _) .busy
  | interrupt =>
    refine .after (.record hw' .selfInterrupted .selfInterrupted) fun κ₁ hκ₁ hw₁ => ?_
    refine .after (World.interrupt_inStep hw₁ (hκ₁.ids _ _ _ hm'.token)) fun κ₂ hκ₂ hw₂ => ?_
    exact interrupted_paired hw₂ (hm'.mono (hκ₁.trans hκ₂))
  | asks h => exact goOn_paired hw' hm' (by rw [hm.env]; exact (h _).mono_node hκ)
  | give h env =>
    have hframe : Frame.Matches κ' (.restore m.env) (.restore m'.env) := by
      rw [hm.env]
      exact .restore _
    have hpush := hm'.push hframe
    have hgiven : Interpreter.Matches κ' { m.push (.restore m.env) with env } { m'.push (.restore m'.env) with env } :=
      { hpush with env := rfl }
    exact .of_matches hw' (.next hgiven (h.mono hκ)) .busy
  | all hlen h => exact fanOut_paired hw' hm' ((Node.Matches.forall₂ hlen h).imp fun _ _ h => h.mono hκ)
  | defer h => exact goOn_paired hw' hm' (h.mono_node hκ)
  | liftPromise hf hr =>
    exact await_paired hw' hm' (fun κ₁ o o' hκ₁ ho => hf κ₁ o o' (hκ.trans hκ₁) ho) fun x => (hr x).mono_eq hκ
  | chain h hk =>
    have hpush := Process.Matches.next (hm'.push (.apply fun p => (hk p).mono_node hκ)) (h.mono hκ)
    cases h with
    | succeed => exact goOn_paired hw' hm' ((hk _).mono_node hκ)
    | @succeedLazy _ a a' h =>
      have hrun := evaluate_paired hw' (h.mono_eq hκ)
      dsimp only
      generalize evaluate a _ = x at hrun ⊢
      generalize evaluate a' _ = x' at hrun ⊢
      obtain ⟨r, v⟩ := x
      obtain ⟨r', v'⟩ := x'
      obtain rfl : r = r' := hrun.answer
      refine .after hrun.step fun κ₁ hκ₁ hw₁ => ?_
      cases r with
      | ok p => exact goOn_paired hw₁ (hm'.mono hκ₁) ((hk p).mono_node (hκ.trans hκ₁))
      | error c => exact .of_matches hw₁ (.next (hm'.mono hκ₁) (.fail κ₁ c)) .busy
    | _ => exact .of_matches hw' hpush .busy
  | matchCause h hr hk =>
    exact .of_matches hw' (.next (hm'.push (.fold (fun c => (hr c).mono_node hκ) fun p => (hk p).mono_node hκ)) (h.mono hκ)) .busy
  | ensuring h hf => exact .of_matches hw' (.next (hm'.push (.finalize (hf.mono hκ))) (h.mono hκ)) .busy

omit hw in
/-- Both stacks are empty, or matching frames are popped. -/
theorem pop?_matches : m.frames.pop? = none ∧ m'.frames.pop? = none ∨
    ∃ f f' s s', m.frames.pop? = some (f, s) ∧ m'.frames.pop? = some (f', s') ∧ f.Matches κ f' ∧
      Interpreter.Matches κ { m with frames := s } { m' with frames := s' } := by
  rcases hf : m.frames.frames with _ | ⟨f, fs⟩
  · have hf' : m'.frames.frames = [] := List.forall₂_nil_left_iff.mp (hf ▸ hm.frames)
    exact .inl ⟨FrameStack.pop?_eq_none hf, FrameStack.pop?_eq_none hf'⟩
  · obtain ⟨f', fs', hff, hfs, hf'⟩ := List.forall₂_cons_left_iff.mp (hf ▸ hm.frames)
    obtain ⟨s, hpop, rfl⟩ := FrameStack.pop?_eq_some hf
    obtain ⟨s', hpop', rfl⟩ := FrameStack.pop?_eq_some hf'
    exact .inr ⟨f, f', s, s', hpop, hpop', hff, { hm with frames := hfs }⟩

/-- Matching frames are popped in step. -/
theorem pop_paired (o : Outcome) : Turn.Paired κ w w' (m.pop o w) (m'.pop o w') := by
  unfold pop
  rcases pop?_matches hm with ⟨hp, hp'⟩ | ⟨f, f', s, s', hp, hp', hf, hrest⟩
  · rw [hp, hp', ← hm.exit_eq]
    exact .of_matches hw (.settled _) .busy
  · rw [hp, hp']
    dsimp only
    cases hf with
    | finalize hn =>
      refine .bind (World.newToken_paired hw) fun κ' hκ ht hw' => ?_
      exact .of_matches hw' (.finalizing (hrest.mono hκ) o ((hrest.mono hκ).start (hn.mono hκ) ht)) .busy
    | restore env =>
      have hrestored : Interpreter.Matches κ { m with frames := s, env } { m' with frames := s', env } :=
        { hrest with env := rfl }
      exact .of_matches hw (.popping hrestored o) .busy
    | apply hk =>
      cases o with
      | value p => exact goOn_paired hw hrest (hk p)
      | failure | interruption => exact .of_matches hw (.popping hrest _) .busy
    | fold hr hk =>
      cases o with
      | value p => exact goOn_paired hw hrest (hk p)
      | failure c => exact goOn_paired hw hrest (hr c)
      | interruption => exact .of_matches hw (.popping hrest _) .busy

/-- Interpreters go on in step when their finalizers have settled with the same exit. -/
theorem finalized_paired (o : Outcome) (e : Exit Value Payload) :
    Turn.Paired κ w w' (m.finalized o e w) (m'.finalized o e w') := by
  cases e with
  | success p => exact .of_matches hw (.popping hm o) .busy
  | failure fc =>
    refine .after (.record hw .finalizerFailed .finalizerFailed) fun κ' hκ hw' => ?_
    have hm' := hm.mono hκ
    cases o with
    | value p => exact .of_matches hw' (.next hm' (.fail κ' fc)) .busy
    | failure c => exact .of_matches hw' (.popping hm' _) .busy
    | interruption =>
      have hkept : Interpreter.Matches κ' { m with suppressed := m.suppressed.andThen fc }
          { m' with suppressed := m'.suppressed.andThen fc } := { hm' with suppressed := by rw [hm.suppressed] }
      exact .of_matches hw' (.popping hkept .interruption) .busy

omit hm in
/-- A future that is given up, or has settled, is forgotten. -/
theorem forget_inStep {a a' : Awaited} (ha : a.Matches κ a') :
    World.InStep κ w w' ((w.unsubscribe a.stopper).forget a.op) ((w'.unsubscribe a'.stopper).forget a'.op) :=
  (World.unsubscribe_inStep hw ha.stopper).andThen fun _ _ hw' => .still hw' (.forget _ _) (.forget _ _)

/-- Awaited futures that match are polled in step. -/
theorem pollAwaited_paired {a a' : Awaited} (ha : a.Matches κ a') :
    Turn.Paired κ w w' (m.pollAwaited a w) (m'.pollAwaited a' w') := by
  unfold pollAwaited
  rw [← hw.isFired_eq ha.op]
  split
  · exact .after (forget_inStep hw ha) fun κ' hκ hw' => interrupted_paired hw' (hm.mono hκ)
  · refine .after (World.attend_inStep hw ha.op) fun κ₁ hκ₁ hw₁ => ?_
    have hpoll := Future.poll_paired ha.future hκ₁ a.op a'.op hw₁
    generalize a.future.poll a.op _ = x at hpoll ⊢
    generalize a'.future.poll a'.op _ = x' at hpoll ⊢
    obtain ⟨r, v⟩ := x
    obtain ⟨r', v'⟩ := x'
    refine .bind hpoll fun κ₂ hκ₂ hr hw₂ => ?_
    have hκ := hκ₁.trans hκ₂
    have hm₂ := hm.mono hκ
    have ha₂ := ha.mono hκ
    dsimp only at hr
    cases hr with
    | @pending f f' hf =>
      have hrest : Awaited.Matches κ₂ { a with future := f } { a' with future := f' } := { ha₂ with future := hf }
      exact .of_matches hw₂ (.awaiting hm₂ hrest) .waiting
    | settled r =>
      refine .after (forget_inStep hw₂ ha₂) fun κ₃ hκ₃ hw₃ => ?_
      cases r with
      | ok p => exact .of_matches hw₃ (.next (hm₂.mono hκ₃) (.succeed κ₃ p)) .busy
      | error x =>
        exact goOn_paired hw₃ (hm₂.mono hκ₃) (((ha₂.onReject x).mono_eq hκ₃).bind fun κ₄ c c' _ hc => by
          obtain rfl : c = c' := hc
          exact .pure (.fail κ₄ c))
    | panicked p =>
      exact .after (forget_inStep hw₂ ha₂) fun κ₃ hκ₃ hw₃ =>
        .of_matches hw₃ (.next (hm₂.mono hκ₃) (.fail κ₃ _)) .busy

omit hm in
/-- Groups that match are unlinked in step. -/
theorem unlink_inStep {g g' : Group} (hg : g.Matches κ g') : World.InStep κ w w' (g.unlink w) (g'.unlink w') := by
  obtain ⟨t, link, failed⟩ := g
  obtain ⟨t', link', failed'⟩ := g'
  cases hg.link with
  | none => exact .refl hw
  | some hs => exact World.unsubscribe_inStep hw hs

/-- Groups that match are joined in step when their branches have the same exits. -/
theorem joined_paired {g g' : Group} (hg : g.Matches κ g') (exits : List (Exit Value Payload)) :
    Turn.Paired κ w w' (m.joined g exits w) (m'.joined g' exits w') := by
  rw [joined_eq, joined_eq]
  refine .after (unlink_inStep hw hg) fun κ₁ hκ₁ hw₁ => ?_
  have hm₁ := hm.mono hκ₁
  rw [← hw₁.isInterrupted_eq hm₁.token]
  split
  · exact interrupted_paired hw₁ hm₁
  · cases Verdict.ofExits exits with
    | succeeded values => exact .of_matches hw₁ (.next hm₁ (.succeed κ₁ _)) .busy
    | failed c => exact .of_matches hw₁ (.next hm₁ (.fail κ₁ c)) .busy
    | interrupted =>
      exact .after (World.interrupt_inStep hw₁ hm₁.token) fun κ₂ hκ₂ hw₂ => interrupted_paired hw₂ (hm₁.mono hκ₂)

omit hm in
/-- A round ends with a trip on both sides, or on neither. -/
theorem afterRound_inStep {g g' : Group} (hg : g.Matches κ g') (bs bs' : List Branch) :
    World.InStep κ w w' (g.afterRound bs w) (g'.afterRound bs' w') := by
  unfold Group.afterRound
  rw [← hg.failed, ← hw.isInterrupted_eq hg.token]
  split
  · exact (World.InStep.record hw _ _).andThen fun κ' hκ hw' => World.interrupt_inStep hw' (hκ.ids _ _ _ hg.token)
  · exact .refl hw

/-- Groups that match end a round in step. -/
theorem endRound_paired {g g' : Group} (hg : g.Matches κ g') {bs bs' : List Branch}
    (hb : List.Forall₂ (Branch.Matches κ) bs bs') :
    Turn.Paired κ w w' (m.endRound g bs w) (m'.endRound g' bs' w') := by
  rw [endRound_eq, endRound_eq, ← Branch.exits_eq hb, ← hb.length_eq]
  refine .after (afterRound_inStep hw hg bs bs') fun κ₁ hκ₁ hw₁ => ?_
  split
  · exact joined_paired hw₁ (hm.mono hκ₁) (hg.mono hκ₁) _
  · have hgroup : Group.Matches κ₁ { g with failed := false } { g' with failed := false } :=
      { hg.mono hκ₁ with failed := rfl }
    exact .of_matches hw₁ (.joining (hm.mono hκ₁) hgroup .nil (Branch.Matches.mono_list hκ₁ hb)) .waiting

end Interpreter

end

namespace Process

/-- Interpreters count nodes that match in step, and yield before both or before neither. -/
theorem turn_next_paired {κ : Counterparts} {w w' : World} (hw : w.Matches κ w') {m m' : Interpreter} (hm : m.Matches κ m')
    {n n' : Node} (hn : n.Matches κ n') : Turn.Paired κ w w' (turn (.next m n) w) (turn (.next m' n') w') := by
  have htick : Interpreter.Matches κ { m with instructions := m.instructions + 1 }
      { m' with instructions := m'.instructions + 1 } := { hm with instructions := by rw [hm.instructions] }
  by_cases h : (m.instructions + 1) % m.interval = 0
  · have h' : (m'.instructions + 1) % m'.interval = 0 := by rwa [← hm.instructions, ← hm.interval]
    rw [turn, turn, if_pos h, if_pos h']
    exact ⟨.still hw ((World.Unseen.record w _).trans (.wakeCurrent _)) ((World.Unseen.record w' _).trans (.wakeCurrent _)),
      .counted (htick.mono (κ.sub_grown _ _ _)) (hn.mono (κ.sub_grown _ _ _)), rfl⟩
  · have h' : ¬ (m'.instructions + 1) % m'.interval = 0 := by rwa [← hm.instructions, ← hm.interval]
    rw [turn, turn, if_neg h, if_neg h']
    exact .of_matches hw (.counted htick hn) .busy

/-- A branch takes the turn of its group. -/
theorem turn_joining_paired {κ : Counterparts} {w w' : World} {m m' : Interpreter} (hm : m.Matches κ m') {g g' : Group}
    (hg : g.Matches κ g') {seen seen' rest rest' : List Branch} (hs : List.Forall₂ (Branch.Matches κ) seen seen')
    (hr : List.Forall₂ (Branch.Matches κ) rest rest') {p p' : Process} (h : Turn.Paired κ w w' (p.turn w) (p'.turn w')) :
    Turn.Paired κ w w' (turn (.joining m g seen (.running p :: rest)) w)
      (turn (.joining m' g' seen' (.running p' :: rest')) w') := by
  simp only [turn]
  generalize p.turn w = t at h ⊢
  generalize p'.turn w' = t' at h ⊢
  obtain ⟨q, v, pace⟩ := t
  obtain ⟨q', v', pace'⟩ := t'
  obtain ⟨hstep, hq, rfl⟩ := h
  have hκ := κ.sub_grown w w' v
  have hm' := hm.mono hκ
  have hg' := hg.mono hκ
  have hs' := Branch.Matches.mono_list hκ hs
  have hr' := Branch.Matches.mono_list hκ hr
  have hq' := hq
  cases hq with
  | settled e =>
    have hgroup : Group.Matches (κ.grown w w' v) { g with failed := g.failed || e.isFailure }
        { g' with failed := g'.failed || e.isFailure } := { hg' with failed := by rw [hg.failed] }
    exact ⟨hstep, .joining hm' hgroup (.cons (.finished e) hs') hr', rfl⟩
  | _ =>
    cases pace with
    | busy => exact ⟨hstep, .joining hm' hg' hs' (.cons (.running hq') hr'), rfl⟩
    | waiting => exact ⟨hstep, .joining hm' hg' (.cons (.running hq') hs') hr', rfl⟩

/-- Matching processes take their turns in step, in worlds that match. -/
theorem Matches.turn {κ : Counterparts} {p p' : Process} (hp : p.Matches κ p') {w w' : World} (hw : w.Matches κ w') :
    Turn.Paired κ w w' (p.turn w) (p'.turn w') := by
  induction p, w using Process.turn.induct generalizing p' w' with
  | case1 | case2 =>
    cases hp with
    | next hm hn => exact turn_next_paired hw hm hn
  | case3 m n w h =>
    cases hp with
    | counted hm hn =>
      rw [Process.turn, Process.turn, if_pos h, if_pos (hw.isInterrupted_eq hm.token ▸ h)]
      exact Interpreter.interrupted_paired hw hm
  | case4 m n w h =>
    cases hp with
    | counted hm hn =>
      rw [Process.turn, Process.turn, if_neg h, if_neg (hw.isInterrupted_eq hm.token ▸ h)]
      exact Interpreter.take_paired hw hm hn
  | case5 m o w =>
    cases hp with
    | popping hm => exact Interpreter.pop_paired hw hm o
  | case6 m o e w =>
    cases hp with
    | finalizing hm _ hc =>
      cases hc with
      | settled => exact Interpreter.finalized_paired hw hm o e
  | case7 m o child w hc ih =>
    cases hp with
    | finalizing hm _ hchild =>
      have hx : child.exit? = none := Process.exit?_eq_none hc
      rw [turn_finalizing _ _ hx, turn_finalizing _ _ (hchild.exit?_eq ▸ hx)]
      obtain ⟨hstep, hq, hpace⟩ := ih hchild hw
      exact ⟨hstep, .finalizing (hm.mono (κ.sub_grown _ _ _)) o hq, hpace⟩
  | case8 m a w =>
    cases hp with
    | awaiting hm ha => exact Interpreter.pollAwaited_paired hw hm ha
  | case9 m g seen w =>
    cases hp with
    | joining hm hg hs hr =>
      cases hr
      exact Interpreter.endRound_paired hw hm hg (List.rel_reverse hs)
  | case10 m g seen e rest w =>
    cases hp with
    | joining hm hg hs hr =>
      cases hr with
      | cons hb hr =>
        cases hb
        exact .of_matches hw (.joining hm hg (.cons (.finished e) hs) hr) .busy
  | case11 | case12 | case13 =>
    rename_i ih
    cases hp with
    | joining hm hg hs hr =>
      cases hr with
      | cons hb hr =>
        cases hb with
        | running hq => exact turn_joining_paired hm hg hs hr (ih hq hw)
  | case14 e w =>
    cases hp
    exact .of_matches hw (.settled e) .waiting

end Process

end Interruptible
