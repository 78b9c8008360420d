import Interruptible.Proofs.Machine.PlanTurns
import Interruptible.Proofs.World.Calm

/-!
# Effects that cannot fail

An effect that is made of payloads, of continuations that compute with them, of groups, and of futures that wait and then settle
brings one payload (`Node.Brings`): nothing in it can fail, panic or trip a token. An interpreter that has started on such an
effect, under a token that nobody has tripped, is at every moment about to come to that payload (`Process.Brings`). Its turns
keep that up and keep calm (`Process.Brings.turn`), and so does a run of it as long as the others keep calm, however often
interpreters yield and whatever the futures wait for (`Process.Brings.run`). If it settles, it is with that payload.
-/

namespace Interruptible

/-- A future that waits, and settles with a payload if it settles. -/
def Future.Brings (p : Payload) : Future → Prop
  | .settle r => r = .ok p
  | .never => True
  | .sleep _ next | .sleepUntil _ next | .yield _ next | .wait _ next => next.Brings p
  | .panic _ | .ask _ _ | .subscribe _ _ _ | .register _ _ _ => False

/-- An effect that cannot fail, and what it comes to. Its callbacks only build the next part. -/
inductive Node.Brings : Node → Payload → Prop where
  | succeed (p : Payload) : Brings (.succeed p) p
  | chain {inner next : Node} {k : Payload → Action Node} {p q : Payload} (hi : Brings inner p) (hk : k p = .pure next)
      (hn : Brings next q) : Brings (.chain inner k) q
  | defer {next : Node} {factory : Action Node} {p : Payload} (hf : factory = .pure next) (hn : Brings next p) :
    Brings (.defer factory) p
  | all {children : List Node} {ps : List Payload} (h : List.Forall₂ Brings children ps) : Brings (.all children) (.list ps)
  | await {factory : OperationId → Action Future} {onReject : Value → Action (Cause Value)} {p : Payload}
      (h : ∀ op, ∃ f : Future, factory op = .pure f ∧ f.Brings p) : Brings (.liftPromise factory onReject) p

/-! ## Callbacks and combinators -/

theorem Action.bind_pure_right {α : Type} (a : Action α) : a.bind .pure = a := by
  induction a with
  | pure a | panic p => rfl
  | ask c next ih => exact congrArg (Action.ask c) (funext ih)
  | subscribe t l next ih => exact congrArg (Action.subscribe t l) (funext ih)
  | register op l next ih => exact congrArg (Action.register op l) ih

theorem Action.bind_bind {α β γ : Type} (a : Action α) (f : α → Action β) (g : β → Action γ) :
    (a.bind f).bind g = a.bind fun x => (f x).bind g := by
  induction a with
  | pure a | panic p => rfl
  | ask c next ih => exact congrArg (Action.ask c) (funext ih)
  | subscribe t l next ih => exact congrArg (Action.subscribe t l) (funext ih)
  | register op l next ih => exact congrArg (Action.register op l) ih

instance : LawfulMonad Action := LawfulMonad.mk' Action Action.bind_pure_right (fun _ _ => rfl) Action.bind_bind

namespace Node.Brings

theorem map {n : Node} {f : Payload → Action Payload} {p q : Payload} (hn : n.Brings p) (hf : f p = .pure q) :
    (n.map f).Brings q := by
  have hk : ((f p).bind fun x => .pure (.succeed x)) = .pure (Node.succeed q) := by
    rw [hf]
    rfl
  exact .chain hn hk (.succeed q)

theorem fromFuture {f : Future} {p : Payload} (hf : f.Brings p) : (Node.fromFuture f).Brings p := .await fun _ => ⟨f, rfl, hf⟩

/-- Effects that are built for items, and run side by side, come to what they come to one by one. -/
theorem forEachPar {α : Type} {items : List α} {f : α → Node} {g : α → Payload} (h : ∀ x ∈ items, (f x).Brings (g x)) :
    (Node.forEachPar items fun x => return f x).Brings (.list (items.map g)) := by
  have hbuilt : (items.mapM fun x => (return f x : Action Node)) = .pure (items.map f) := List.mapM_pure
  have hfactory : (do return Node.collect (← items.mapM fun x => return f x) : Action Node) = .pure (.collect (items.map f)) := by
    rw [hbuilt]
    rfl
  have hchildren : List.Forall₂ Node.Brings (items.map f) (items.map g) := by
    rw [List.forall₂_map_left_iff, List.forall₂_map_right_iff, List.forall₂_same]
    exact h
  exact .defer hfactory (.chain (.all hchildren) rfl (.succeed _))

end Node.Brings

/-! ## Processes -/

/-- Pending frames that cannot fail, and what they make of a payload. -/
inductive Frame.Carry : List Frame → Payload → Payload → Prop where
  | nil (p : Payload) : Carry [] p p
  | apply {k : Payload → Action Node} {fs : List Frame} {next : Node} {p q r : Payload} (hk : k p = .pure next)
      (hn : next.Brings q) (hs : Carry fs q r) : Carry (.apply k :: fs) p r

mutual
/-- A process whose tokens nobody has tripped, whose operation nobody has stopped, and what it comes to. -/
inductive Process.Brings (w : World) : Process → Payload → Prop where
  | next {m : Interpreter} {n : Node} {p q : Payload} (ho : w.Untripped m.token) (hn : n.Brings p)
      (hs : Frame.Carry m.frames.frames p q) : Process.Brings w (.next m n) q
  | counted {m : Interpreter} {n : Node} {p q : Payload} (ho : w.Untripped m.token) (hn : n.Brings p)
      (hs : Frame.Carry m.frames.frames p q) : Process.Brings w (.counted m n) q
  | popping {m : Interpreter} {p q : Payload} (ho : w.Untripped m.token) (hs : Frame.Carry m.frames.frames p q) :
    Process.Brings w (.popping m (.value p)) q
  | awaiting {m : Interpreter} {a : Awaited} {p q : Payload} (ho : w.Untripped m.token) (hop : w.Unstopped a.op)
      (hf : a.future.Brings p) (hs : Frame.Carry m.frames.frames p q) : Process.Brings w (.awaiting m a) q
  | joining {m : Interpreter} {g : Group} {seen rest : List Branch} {ps : List Payload} {q : Payload}
      (ho : w.Untripped m.token) (hg : g.failed = false) (hb : Branch.AllBring w (seen.reverse ++ rest) ps)
      (hs : Frame.Carry m.frames.frames (.list ps) q) : Process.Brings w (.joining m g seen rest) q
  | settled (p : Payload) : Process.Brings w (.settled (.success p)) p

/-- Branches of a group that cannot fail, and what they come to in their order. -/
inductive Branch.AllBring (w : World) : List Branch → List Payload → Prop where
  | nil : Branch.AllBring w [] []
  | running {q : Process} {rest : List Branch} {p : Payload} {ps : List Payload} (hq : Process.Brings w q p)
      (hr : Branch.AllBring w rest ps) : Branch.AllBring w (.running q :: rest) (p :: ps)
  | finished {rest : List Branch} {p : Payload} {ps : List Payload} (hr : Branch.AllBring w rest ps) :
    Branch.AllBring w (.finished (.success p) :: rest) (p :: ps)
end

/-- What a turn leaves comes to a payload, and the turn has kept calm. -/
def Turn.Brings (w : World) (p : Payload) (t : Turn) : Prop := t.process.Brings t.world p ∧ w.Calm t.world

mutual
/-- As long as it is calm a process comes to the same. -/
theorem Process.Brings.calm {q : Process} {w w' : World} {p : Payload} (hc : w.Calm w') : q.Brings w p → q.Brings w' p
  | .next ho hn hs => .next (hc.token _ ho) hn hs
  | .counted ho hn hs => .counted (hc.token _ ho) hn hs
  | .popping ho hs => .popping (hc.token _ ho) hs
  | .awaiting ho hop hf hs => .awaiting (hc.token _ ho) (hc.operation _ hop) hf hs
  | .joining ho hg hb hs => .joining (hc.token _ ho) hg (Branch.AllBring.calm hc hb) hs
  | .settled p => .settled p

/-- Branches that cannot fail come to the same payloads while the world keeps calm. -/
theorem Branch.AllBring.calm {bs : List Branch} {w w' : World} {ps : List Payload} (hc : w.Calm w') :
    Branch.AllBring w bs ps → Branch.AllBring w' bs ps
  | .nil => .nil
  | .running hq hr => .running (Process.Brings.calm hc hq) (Branch.AllBring.calm hc hr)
  | .finished hr => .finished (Branch.AllBring.calm hc hr)
end

/-! ## Futures -/

/-- A poll of such a future keeps calm; the future goes on waiting, or has settled. -/
theorem Future.Brings.poll {f : Future} {p : Payload} (h : f.Brings p) (op : OperationId) (w : World) :
    w.Calm (f.poll op w).2 ∧ ((∃ rest : Future, (f.poll op w).1 = .pending rest ∧ rest.Brings p) ∨
      (f.poll op w).1 = .settled (.ok p)) := by
  induction f generalizing w with
  | settle r =>
    obtain rfl := h
    exact ⟨.refl w, .inr rfl⟩
  | never => exact ⟨.refl w, .inl ⟨.never, rfl, trivial⟩⟩
  | sleep ms next ih =>
    simp only [Future.poll]
    split
    · exact ih h w
    · exact ⟨.of_steady (.startTimer w _ op), .inl ⟨_, rfl, h⟩⟩
  | sleepUntil t next ih =>
    simp only [Future.poll]
    split
    · exact ih h w
    · exact ⟨.refl w, .inl ⟨_, rfl, h⟩⟩
  | yield times next ih =>
    cases times with
    | zero => exact ih h w
    | succ n => exact ⟨.of_steady (.wakeCurrent w), .inl ⟨_, rfl, h⟩⟩
  | wait s next ih =>
    simp only [Future.poll]
    split
    · exact ih h w
    · exact ⟨.of_steady (.park w s op), .inl ⟨_, rfl, h⟩⟩
  | panic _ | ask _ _ _ | subscribe _ _ _ _ | register _ _ _ _ => exact h.elim

/-! ## Groups -/

namespace Branch.AllBring

variable {w : World} {ps : List Payload}

/-- The branches of a group that starts. -/
theorem start {children : List Node} (h : List.Forall₂ Node.Brings children ps) {t : TokenId} (ho : w.Untripped t)
    (env : Environment) (k : Nat) : AllBring w (children.map fun n => .running (.start n env t k)) ps := by
  induction h with
  | nil => exact .nil
  | cons hn _ ih => exact .running (.next ho hn (.nil _)) ih

/-- Branches that have all finished have succeeded with what they come to. -/
theorem finished_eq {exits : List (Exit Value Payload)} (h : AllBring w (exits.map .finished) ps) : exits = ps.map .success := by
  induction exits generalizing ps with
  | nil =>
    cases h
    rfl
  | cons e exits ih =>
    cases h with
    | finished hr => rw [ih hr, List.map_cons]

/-- One branch comes to its own part of the result. It may be replaced by any other one that comes to the same. -/
theorem split {before after : List Branch} {q : Process} (h : AllBring w (before ++ .running q :: after) ps) :
    ∃ p, q.Brings w p ∧ ∀ w', w.Calm w' →
      (∀ q', q'.Brings w' p → AllBring w' (before ++ .running q' :: after) ps) ∧
        AllBring w' (before ++ .finished (.success p) :: after) ps := by
  induction before generalizing ps with
  | nil =>
    cases h with
    | running hq hr =>
      refine ⟨_, hq, ?_⟩
      intro w' hc
      have hr' := hr.calm hc
      constructor
      · intro q' hq'
        exact .running hq' hr'
      · exact .finished hr'
  | cons b before ih =>
    cases h with
    | running hb hr =>
      obtain ⟨p, hq, hrep⟩ := ih hr
      refine ⟨p, hq, ?_⟩
      intro w' hc
      have hb' := hb.calm hc
      obtain ⟨hrun, hfin⟩ := hrep w' hc
      constructor
      · intro q' hq'
        exact .running hb' (hrun q' hq')
      · exact .running hb' hfin
    | finished hr =>
      obtain ⟨p, hq, hrep⟩ := ih hr
      refine ⟨p, hq, ?_⟩
      intro w' hc
      obtain ⟨hrun, hfin⟩ := hrep w' hc
      constructor
      · intro q' hq'
        exact .finished (hrun q' hq')
      · exact .finished hfin

end Branch.AllBring

/-! ## One turn -/

namespace Interpreter

variable {m : Interpreter} {w : World} {p q : Payload}

/-- Going on with a callback that builds the next part. -/
theorem goOn_brings {v : World} {next : Node} {a : Action Node} (ho : v.Untripped m.token) (hc : w.Calm v) (ha : a = .pure next)
    (hn : next.Brings p) (hs : Frame.Carry m.frames.frames p q) : (m.goOn a v).Brings w q := by
  subst ha
  exact ⟨.next ho hn hs, hc⟩

/-- A group that starts comes to the payloads of its branches, which have tokens of their own. -/
theorem fanOut_brings (ho : w.Untripped m.token) {children : List Node} {ps : List Payload}
    (h : List.Forall₂ Node.Brings children ps) (hs : Frame.Carry m.frames.frames (.list ps) q) :
    (m.fanOut children w).Brings w q := by
  obtain ⟨hmade, hnew⟩ := World.Calm.newToken w
  obtain ⟨s, w', hr, hlinked⟩ := World.Calm.react (hmade.token _ ho) (.forward w.newToken.1)
  have hnoted : w'.Calm (w'.record (.joining children.length)) := .of_steady (.record w' _)
  have hc := (hmade.trans hlinked).trans hnoted
  have hbranches := Branch.AllBring.start h ((hlinked.trans hnoted).token _ hnew) m.env m.interval
  simp only [fanOut, hr, List.length_map]
  exact ⟨.joining (hc.token _ ho) rfl hbranches hs, hc⟩

/-- A future that starts brings its payload: nobody has tripped the token, so that its operation has not been stopped. -/
theorem await_brings (ho : w.Untripped m.token) {factory : OperationId → Action Future}
    (onReject : Value → Action (Cause Value)) (h : ∀ op, ∃ f : Future, factory op = .pure f ∧ f.Brings p)
    (hs : Frame.Carry m.frames.frames p q) : (m.await factory onReject w).Brings w q := by
  obtain ⟨hmade, hnew⟩ := World.Calm.newOperation w
  obtain ⟨s, w', hr, hwatched⟩ := World.Calm.react (hmade.token _ ho) (.stop w.newOperation.1)
  have hc := hmade.trans hwatched
  obtain ⟨f, hfactory, hf⟩ := h w.newOperation.1
  simp only [await, hr, hfactory, Action.run]
  exact ⟨.awaiting (hc.token _ ho) (hwatched.operation _ hnew) hf hs, hc⟩

/-- An interpreter that takes a node that cannot fail comes to what its frames make of the payload. -/
theorem take_brings (ho : w.Untripped m.token) {n : Node} (hn : n.Brings p) (hs : Frame.Carry m.frames.frames p q) :
    (m.take n w).Brings w q := by
  have hc : w.Calm (w.record (.step n.kind m.frames.height)) := .of_steady (.record w _)
  have ho' := hc.token _ ho
  cases hn with
  | succeed p => exact ⟨.popping ho' hs, hc⟩
  | @chain inner next k p _ hi hk hn =>
    have hpushed (hi : inner.Brings p) : Turn.Brings w q
        { process := .next (m.push (.apply k)) inner, world := w.record (.step (Node.kind (.chain inner k)) m.frames.height) } :=
      ⟨.next ho' hi (.apply hk hn hs), hc⟩
    cases hi with
    | succeed p => exact goOn_brings ho' hc hk hn hs
    | chain hi' hk' hn' => exact hpushed (.chain hi' hk' hn')
    | defer hf hn' => exact hpushed (.defer hf hn')
    | all h => exact hpushed (.all h)
    | await h => exact hpushed (.await h)
  | defer hf hn => exact goOn_brings ho' hc hf hn hs
  | all h =>
    obtain ⟨hp, hout⟩ := fanOut_brings ho' h hs
    exact ⟨hp, hc.trans hout⟩
  | @await factory onReject _ h =>
    obtain ⟨hp, hstarted⟩ := await_brings ho' onReject h hs
    exact ⟨hp, hc.trans hstarted⟩

/-- An interpreter that pops frames that cannot fail comes to what they make of the payload. -/
theorem pop_brings (ho : w.Untripped m.token) (hs : Frame.Carry m.frames.frames p q) : (m.pop (.value p) w).Brings w q := by
  generalize hfs : m.frames.frames = fs at hs
  cases hs with
  | nil =>
    rw [pop_nil hfs]
    exact ⟨.settled p, .refl w⟩
  | apply hk hn hs =>
    obtain ⟨s', hpop, hframes⟩ := FrameStack.pop?_eq_some hfs
    simp only [pop, hpop]
    subst hframes
    exact goOn_brings ho (.refl w) hk hn hs

/-- A future that is polled goes on waiting, or frames are popped with its payload. -/
theorem pollAwaited_brings {a : Awaited} (ho : w.Untripped m.token) (hop : w.Unstopped a.op) (hf : a.future.Brings p)
    (hs : Frame.Carry m.frames.frames p q) : (m.pollAwaited a w).Brings w q := by
  obtain ⟨hpolled, hpoll⟩ := hf.poll a.op (w.attend a.op)
  have hc := (World.Calm.attend w a.op).trans hpolled
  simp only [pollAwaited, hop.isFired_eq_false, Bool.false_eq_true, if_false]
  generalize a.future.poll a.op (w.attend a.op) = r at hc hpoll
  obtain ⟨r, v⟩ := r
  obtain ⟨rest, rfl, hrest⟩ | rfl := hpoll
  · exact ⟨.awaiting (hc.token _ ho) (hc.operation _ hop) hrest hs, hc⟩
  · have hdone := (hc.trans (.unsubscribe v a.stopper)).trans (.forget _ a.op)
    exact ⟨.next (hdone.token _ ho) (.succeed p) hs, hdone⟩

/-- A round ends with the payloads of all branches, or the group waits. -/
theorem endRound_brings {g : Group} {branches : List Branch} {ps : List Payload} (ho : w.Untripped m.token)
    (hg : g.failed = false) (hb : Branch.AllBring w branches ps) (hs : Frame.Carry m.frames.frames (.list ps) q) :
    (m.endRound g branches w).Brings w q := by
  rw [endRound_eq, g.afterRound_of_not_failed hg]
  split
  · rename_i hpending
    rw [Branch.eq_map_finished hpending] at hb
    have hunlinked : w.Calm (g.unlink w) := by
      unfold Group.unlink
      split
      · exact .unsubscribe w _
      · exact .refl w
    rw [joined_eq, World.isInterrupted_unlink, ho.isInterrupted_eq_false, hb.finished_eq, Verdict.ofExits_success]
    exact ⟨.next (hunlinked.token _ ho) (.succeed (.list ps)) hs, hunlinked⟩
  · exact ⟨.joining ho rfl hb hs, .refl w⟩

end Interpreter

namespace Process.Brings

variable {q q' : Process} {w v : World} {p : Payload}

/-- The turn of a branch. -/
theorem turn_branch {m : Interpreter} {g : Group} {seen rest : List Branch}
    (ih : ∀ {p}, q.Brings w p → (q.turn w).Brings w p) (h : (Process.joining m g seen (.running q :: rest)).Brings w p) :
    (Process.turn (.joining m g seen (.running q :: rest)) w).Brings w p := by
  cases h with
  | @joining _ _ _ _ ps _ ho hg hb hs =>
    obtain ⟨x, hq, hrep⟩ := hb.split
    obtain ⟨hturn, hc⟩ := ih hq
    obtain ⟨hrun, hfin⟩ := hrep _ hc
    have ho' := hc.token _ ho
    simp only [Process.turn]
    split
    · rename_i e he
      rw [he] at hturn
      cases hturn with
      | settled x =>
        have hfailed : (g.failed || (Exit.success x : Exit Value Payload).isFailure) = false := by rw [hg]; rfl
        exact ⟨.joining ho' hfailed (by simpa using hfin) hs, hc⟩
    · exact ⟨.joining ho' hg (hrun _ hturn) hs, hc⟩
    · exact ⟨.joining ho' hg (by simpa using hrun _ hturn) hs, hc⟩

/-- A turn leads to the same payload, and keeps calm. -/
theorem turn {q : Process} {w : World} {p : Payload} (h : q.Brings w p) : (q.turn w).Brings w p := by
  match q, h with
  | .next m n, .next ho hn hs =>
    obtain ⟨hturn, halike⟩ := turn_next m n w
    have hc : w.Calm (Process.turn (.next m n) w).world := .of_steady ⟨halike.tokens, halike.operations⟩
    refine ⟨?_, hc⟩
    rw [hturn]
    exact .counted (hc.token _ ho) hn hs
  | .counted m n, .counted ho hn hs =>
    rw [turn_counted ho.isInterrupted_eq_false]
    exact Interpreter.take_brings ho hn hs
  | .popping m _, .popping ho hs => exact Interpreter.pop_brings ho hs
  | .awaiting m a, .awaiting ho hop hf hs => exact Interpreter.pollAwaited_brings ho hop hf hs
  | .joining m g seen [], .joining ho hg hb hs =>
    rw [List.append_nil] at hb
    exact Interpreter.endRound_brings ho hg hb hs
  | .joining m g seen (.finished e :: rest), h =>
    cases h with
    | @joining _ _ _ _ ps _ ho hg hb hs =>
      have hb' : Branch.AllBring w ((Branch.finished e :: seen).reverse ++ rest) ps := by simpa using hb
      exact ⟨.joining ho hg hb' hs, .refl w⟩
  | .joining m g seen (.running q :: rest), h => exact turn_branch turn h
  | .settled _, .settled p => exact ⟨.settled p, .refl w⟩

/-- Whatever a process does and however the others change the world meanwhile, as long as they keep calm it comes to the
same. -/
theorem run {R : World → World → Prop} (hR : ∀ a b, R a b → a.Calm b) {h : History} (run : Run R q w h q' v) (hq : q.Brings w p) :
    q'.Brings v p ∧ w.Calm v := by
  induction run with
  | done => exact ⟨hq, .refl _⟩
  | turn _ _ ih =>
    obtain ⟨hturn, hc⟩ := hq.turn
    obtain ⟨hq', hc'⟩ := ih hturn
    exact ⟨hq', hc.trans hc'⟩
  | moved hm _ ih =>
    obtain ⟨hq', hc'⟩ := ih (hq.calm (hR _ _ hm))
    exact ⟨hq', (hR _ _ hm).trans hc'⟩

/-- A poll leads to the same, and keeps calm. -/
theorem poll (n : Nat) (h : q.Brings w p) : (q.poll n w).1.Brings (q.poll n w).2 p ∧ w.Calm (q.poll n w).2 := by
  cases hq : q.exit? with
  | none =>
    obtain ⟨_, alone⟩ := q.poll_run (R := Eq) n w hq
    have hnobody : ∀ a b : World, a = b → a.Calm b := by
      intro a b hab
      rw [hab]
      exact .refl b
    exact run hnobody alone h
  | some e =>
    obtain rfl := exit?_eq_some hq
    cases n <;> exact ⟨h, .refl w⟩

end Process.Brings

end Interruptible
