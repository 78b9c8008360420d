import Interruptible.Proofs.Cause.Queries
import Interruptible.Proofs.Effect.BracketExit

/-!
# Typed handlers

What `fold`, `catchAll`, `either` and `mapError` do with an effect that fails. A cause is taken apart for its leftmost typed
failure, and given back as it is if it has none (`Cause.failureOr_eq`); its failures are replaced from left to right, and
nothing else of it is touched (`Cause.mapM_run`). The frame of a typed handler is popped once, with the cause to which its
effect has come; what is made of that cause is told by `TypedHandler.Answers`, and `typed_failures_handled` says that there is
nothing else. A cause that is passed on, or that has been mapped, is what the interpreter pops its frames with until a handler
gets it. A finalizer on the way that fails has its own cause appended, as to every failure; if none does, the handler gets the
cause unchanged (`History.FailsOn`).
-/

namespace Interruptible

/-! ## The typed failures of a cause -/

namespace Cause

variable {ε δ : Type}

/-- What a cause is without the values of its typed failures: its shape, its defects and its interruptions. -/
def shape (c : Cause ε) : Cause Unit := c.map fun _ => ()

theorem failureOr_of_head {c : Cause ε} {e : ε} (h : c.failures.head? = some e) :
    (c.failureOr : Except (Cause ε) ε) = .ok e := by
  obtain ⟨es, hes⟩ := List.head?_eq_some_iff.mp h
  rw [failureOr_eq, hes]

theorem failureOr_of_nil {c : Cause ε} (h : c.failures = []) : (c.failureOr : Except (Cause ε) ε) = .error c := by
  rw [failureOr_eq, h]

end Cause

/-- A callback is called with each of some values, the first one first: what it is called with, and what it makes of it. -/
inductive Action.Each {α β : Type} (f : α → Action β) : List α → World → List β → World → Prop where
  | nil (w : World) : Each f [] w [] w
  | cons {a : α} {b : β} {as : List α} {bs : List β} {w w' w'' : World} (first : (f a).run w = (.ok b, w'))
      (rest : Each f as w' bs w'') : Each f (a :: as) w (b :: bs) w''

theorem Action.Each.append {α β : Type} {f : α → Action β} {as as' : List α} {bs bs' : List β} {w w' w'' : World}
    (h : Each f as w bs w') (h' : Each f as' w' bs' w'') : Each f (as ++ as') w (bs ++ bs') w'' := by
  induction h with
  | nil => exact h'
  | cons first _ ih => exact .cons first (ih h')

/-- Mapping a cause calls the callback with each of its typed failures from left to right, puts the results in their places, and
leaves everything else as it is. -/
theorem Cause.mapM_run {ε δ : Type} {f : ε → Action δ} (c : Cause ε)
    (hf : ∀ e ∈ c.failures, ∀ w p, ((f e).run w).1 ≠ .error p) (w : World) :
    ∃ c' v, (c.mapM f).run w = (.ok c', v) ∧ c'.shape = c.shape ∧ Action.Each f c.failures w c'.failures v := by
  induction c generalizing w with
  | empty => exact ⟨.empty, w, rfl, rfl, .nil w⟩
  | die d => exact ⟨.die d, w, rfl, rfl, .nil w⟩
  | interrupt => exact ⟨.interrupt, w, rfl, rfl, .nil w⟩
  | fail e =>
    cases hrun : (f e).run w with
    | mk r v =>
      cases r with
      | error p => exact absurd (congrArg Prod.fst hrun) (hf e List.mem_cons_self w p)
      | ok d => exact ⟨.fail d, v, Action.run_bind_ok hrun _, rfl, .cons hrun (.nil v)⟩
  | «then» l r ihl ihr =>
    rw [failures_then] at hf ⊢
    obtain ⟨l', w', hl, hsl, eachl⟩ := ihl (fun e he => hf e (List.mem_append_left _ he)) w
    obtain ⟨r', v, hr, hsr, eachr⟩ := ihr (fun e he => hf e (List.mem_append_right _ he)) w'
    refine ⟨.then l' r', v, ?_, congrArg₂ Cause.then hsl hsr, ?_⟩
    · exact (Action.run_bind_ok hl _).trans (Action.run_bind_ok hr _)
    · rw [failures_then]
      exact eachl.append eachr
  | both l r ihl ihr =>
    rw [failures_both] at hf ⊢
    obtain ⟨l', w', hl, hsl, eachl⟩ := ihl (fun e he => hf e (List.mem_append_left _ he)) w
    obtain ⟨r', v, hr, hsr, eachr⟩ := ihr (fun e he => hf e (List.mem_append_right _ he)) w'
    refine ⟨.both l' r', v, ?_, congrArg₂ Cause.both hsl hsr, ?_⟩
    · exact (Action.run_bind_ok hl _).trans (Action.run_bind_ok hr _)
    · rw [failures_both]
      exact eachl.append eachr

/-! ## Failures on their way -/

/-- A turn in which an interpreter pops a frame with a failure and calls nothing, or waits for a finalizer meanwhile. -/
def Process.FailsSilently (p : Process) (w : World) : Prop :=
  (∃ m c, p.Pops m (.failure c)) ∧ (p.finalizer? = none → p.calls w = [])

/-- What becomes of a cause that an interpreter pops its frames with. On the way nothing is called with it; the causes with which
finalizers fail are appended to it. It reaches the first handler among the frames, or the exit if there is none. -/
inductive History.FailsOn : Cause Value → List Frame → History → Process → Prop where
  | reached {c : Cause Value} {passed fs : List Frame} {recover : Cause Value → Action Node} {k : Payload → Action Node}
      {h h' : History} {m : Interpreter} {w : World} {q : Process}
      (unhandled : ∀ f ∈ passed, ∀ recover k, f ≠ .fold recover k)
      (way : ∀ y ∈ h, y.1.FailsSilently y.2) (arrived : m.frames.frames = .fold recover k :: fs) :
      FailsOn c (passed ++ .fold recover k :: fs)
        (h ++ (.popping m (.failure (h.finalizerFailures.foldl Cause.andThen c)), w) :: h') q
  | left {c : Cause Value} {passed : List Frame} {h : History}
      (unhandled : ∀ f ∈ passed, ∀ recover k, f ≠ .fold recover k)
      (way : ∀ y ∈ h, y.1.FailsSilently y.2) :
      FailsOn c passed h (.settled (.failure (h.finalizerFailures.foldl Cause.andThen c)))
  /-- The turns end before that. -/
  | underway {c : Cause Value} {passed : List Frame} {h : History} {m : Interpreter} {q : Process}
      (unhandled : ∀ f ∈ passed, ∀ recover k, f ≠ .fold recover k) (way : ∀ y ∈ h, y.1.FailsSilently y.2)
      (pops : q.Pops m (.failure (h.finalizerFailures.foldl Cause.andThen c))) : FailsOn c (passed ++ m.frames.frames) h q

/-- One more turn on the way of a failure. -/
theorem History.FailsOn.cons {c c' : Cause Value} {passed base : List Frame} {h : History} {p q : Process}
    (hf : h.FailsOn c' base q) (unhandled : ∀ f ∈ passed, ∀ recover k, f ≠ .fold recover k) {m : Interpreter}
    (hp : p.Pops m (.failure c)) (hc : c' = p.finalizerFailure?.toList.foldl Cause.andThen c) (w : World)
    (hcalls : p.finalizer? = none → p.calls w = []) : FailsOn c (passed ++ base) ((p, w) :: h) q := by
  have hpass : ∀ h : History, h.finalizerFailures.foldl Cause.andThen c' =
      (History.finalizerFailures ((p, w) :: h)).foldl Cause.andThen c := by
    intro h
    rw [History.finalizerFailures_cons, List.foldl_append, hc]
  have hsilent : p.FailsSilently w := ⟨⟨m, c, hp⟩, hcalls⟩
  cases hf with
  | reached unhandled' way arrived =>
    rw [hpass, ← List.append_assoc, ← List.cons_append]
    refine .reached (fun f hf => ?_) (List.forall_mem_cons.mpr ⟨hsilent, way⟩) arrived
    exact (List.mem_append.mp hf).elim (unhandled f) (unhandled' f)
  | left unhandled' way =>
    rw [hpass]
    refine .left (fun f hf => ?_) (List.forall_mem_cons.mpr ⟨hsilent, way⟩)
    exact (List.mem_append.mp hf).elim (unhandled f) (unhandled' f)
  | underway unhandled' way pops =>
    rw [hpass] at pops
    rw [← List.append_assoc]
    refine .underway (fun f hf => ?_) (List.forall_mem_cons.mpr ⟨hsilent, way⟩) pops
    exact (List.mem_append.mp hf).elim (unhandled f) (unhandled' f)

/-- A frame that is no handler is passed by a failure. -/
theorem Process.turn_passes {m : Interpreter} {f : Frame} {fs : List Frame} (hf : m.frames.frames = f :: fs)
    (hnone : ∀ recover k, f ≠ .fold recover k) (c : Cause Value) (w : World) :
    (∃ m', m'.frames.frames = fs ∧ (Process.turn (.popping m (.failure c)) w).process.Pops m' (.failure c)) ∧
      (Process.popping m (.failure c)).calls w = [] := by
  obtain ⟨s', hpop, rfl⟩ := FrameStack.pop?_eq_some hf
  simp only [turn, Interpreter.pop, hpop, calls, hf]
  cases f with
  | apply k => exact ⟨⟨_, rfl, rfl, rfl⟩, rfl⟩
  | finalize n => exact ⟨⟨_, rfl, rfl, rfl⟩, rfl⟩
  | restore env => exact ⟨⟨_, rfl, rfl, rfl⟩, rfl⟩
  | fold recover k => exact absurd rfl (hnone recover k)

/-- While a finalizer is at work its interpreter keeps the failure, and when it has failed its cause is appended. -/
theorem Process.turn_works (m : Interpreter) (c : Cause Value) (child : Process) (w : World) :
    (Process.turn (.finalizing m (.failure c) child) w).process.Pops m
      (.failure ((Process.finalizing m (.failure c) child).finalizerFailure?.toList.foldl Cause.andThen c)) := by
  cases hx : child.exit? with
  | none =>
    rw [turn_finalizing m _ hx]
    cases child with
    | settled e => nomatch hx
    | _ => exact ⟨rfl, rfl⟩
  | some e =>
    obtain rfl := exit?_eq_some hx
    cases e with
    | success p => exact ⟨rfl, rfl⟩
    | failure fc => exact ⟨rfl, rfl⟩

/-- An interpreter that pops its frames with a cause brings it to a handler or to its exit, if its turns do not end before. -/
theorem Process.Run.failsOn {R : World → World → Prop} {p q : Process} {w v : World} {h : History} {m : Interpreter}
    {c : Cause Value} (run : Run R p w h q v) (hp : p.Pops m (.failure c)) : h.FailsOn c m.frames.frames q := by
  induction run generalizing m c with
  | done p w => exact @History.FailsOn.underway c [] [] m p (List.forall_mem_nil _) (List.forall_mem_nil _) hp
  | @turn p q w v h _ run ih =>
    cases p with
    | popping m₁ o =>
      obtain ⟨rfl, rfl⟩ := hp
      have hpops : (Process.popping m₁ (.failure c)).Pops m₁ (.failure c) := ⟨rfl, rfl⟩
      cases hf : m₁.frames.frames with
      | nil =>
        simp only [Process.turn, Interpreter.pop_nil hf] at run
        obtain ⟨rfl, rfl⟩ := run.of_settled rfl
        have hcalls : (Process.popping m₁ (.failure c)).calls w = [] := by simp [calls, hf]
        exact .left (h := [(.popping m₁ (.failure c), w)]) (List.forall_mem_nil _)
          (List.forall_mem_cons.mpr ⟨⟨⟨m₁, c, hpops⟩, fun _ => hcalls⟩, List.forall_mem_nil _⟩)
      | cons f fs =>
        by_cases hnone : ∀ recover k, f ≠ .fold recover k
        · obtain ⟨⟨m', rfl, hpops'⟩, hcalls⟩ := turn_passes hf hnone c w
          have hone : ∀ g ∈ [f], ∀ recover k, g ≠ .fold recover k := by
            intro g hg
            rw [List.mem_singleton.mp hg]
            exact hnone
          exact (ih hpops').cons hone hpops rfl w fun _ => hcalls
        · obtain ⟨recover, k, rfl⟩ : ∃ recover k, f = .fold recover k := by
            simpa using hnone
          exact @History.FailsOn.reached c [] fs recover k [] h m₁ w q (List.forall_mem_nil _) (List.forall_mem_nil _) hf
    | finalizing m₁ o child =>
      obtain ⟨rfl, rfl⟩ := hp
      have hpops : (Process.finalizing m₁ (.failure c) child).Pops m₁ (.failure c) := ⟨rfl, rfl⟩
      have hwaits := (ih (turn_works m₁ c child w)).cons (List.forall_mem_nil _) hpops rfl w fun hnone =>
        absurd hnone (Option.some_ne_none child)
      exact hwaits
    | _ => exact hp.elim
  | moved _ _ ih => exact ih hp

/-- How an interpreter goes on with an exit that it knows already: it looks at its token once more, and unless it notices
interruption then, it pops its frames with that exit. -/
inductive History.Delivers (base : List Frame) (q : Process) (e : Exit Value Payload) : History → Prop where
  | noticed {m : Interpreter} {w₁ w₂ : World} {h : History} (noticed : Process.Notices (.counted m.tick (.done e)) w₂) :
      Delivers base q e ((.next m (.done e), w₁) :: (.counted m.tick (.done e), w₂) :: h)
  | delivered {m : Interpreter} {w₁ w₂ w₃ : World} {h : History} (comes : (Process.popping m.tick e.outcome).ComesTo base e)
      (fails : ∀ c, e = .failure c → History.FailsOn c base ((.popping m.tick e.outcome, w₃) :: h) q) :
      Delivers base q e ((.next m (.done e), w₁) :: (.counted m.tick (.done e), w₂) :: (.popping m.tick e.outcome, w₃) :: h)
  /-- The turns end before that. -/
  | underway {h : History} (short : h.length < 3) : Delivers base q e h

/-- An interpreter goes on with an exit that it knows as far as its turns go. -/
theorem Process.Run.delivers {R : World → World → Prop} {m : Interpreter} {e : Exit Value Payload} {q : Process} {w v : World}
    {h : History} {base : List Frame} (run : Run R (.next m (.done e)) w h q v) (hm : m.frames.frames = base) :
    h.Delivers base q e := by
  rcases run.starts rfl with ⟨rfl, -⟩ | ⟨w₁, h₁, rfl, run₁⟩
  · exact .underway (by simp)
  rw [(turn_next m _ w₁).1] at run₁
  rcases run₁.starts rfl with ⟨rfl, -⟩ | ⟨w₂, h₂, rfl, run₂⟩
  · exact .underway (by simp)
  cases ho : w₂.isInterrupted m.tick.token with
  | true => exact .noticed (.checked ho)
  | false =>
    have htake : (m.tick.take (.done e) w₂).process = .popping m.tick e.outcome := by cases e <;> rfl
    rw [turn_counted ho, htake] at run₂
    rcases run₂.starts rfl with ⟨rfl, -⟩ | ⟨w₃, h₃, rfl, run₃⟩
    · exact .underway (by simp)
    · refine .delivered ⟨m.tick, _, rfl, hm, e.exit?_outcome⟩ fun c hc => ?_
      subst hc hm
      exact (Run.turn (p := .popping m.tick (.failure c)) rfl run₃).failsOn (m := m.tick) ⟨rfl, rfl⟩

/-! ## The handlers -/

/-- The handler of typed failures that `fold` makes of a callback: a cause without one is passed on. -/
def Node.typed (onFailure : Value → Action Node) (c : Cause Value) : Action Node :=
  match c.failureOr with
  | .ok e => onFailure e
  | .error rest => return .fail rest

/-- What deals with the typed failures of an effect. -/
inductive TypedHandler where
  | fold (onFailure : Value → Action Node) (onSuccess : Payload → Action Node)
  | catchAll (onFailure : Value → Action Node)
  | either
  | mapError (f : Value → Action Value)

namespace TypedHandler

/-- The effect with its handler. -/
def node (n : Node) : TypedHandler → Node
  | .fold onFailure onSuccess => n.fold onFailure onSuccess
  | .catchAll onFailure => n.catchAll onFailure
  | .either => n.either
  | .mapError f => n.mapError f

/-- The callback that a typed failure is handed to. -/
def onFailure? : TypedHandler → Option (Value → Action Node)
  | .fold onFailure _ => some onFailure
  | .catchAll onFailure => some onFailure
  | .either | .mapError _ => none

/-- What is called when the effect fails. -/
def recover : TypedHandler → Cause Value → Action Node
  | .fold onFailure _ => Node.typed onFailure
  | .catchAll onFailure => Node.typed onFailure
  | .either => Node.typed fun e => return .succeed (.result (.error e))
  | .mapError f => fun c => do return .fail (← c.mapM f)

/-- What is called when the effect succeeds. -/
def apply : TypedHandler → Payload → Action Node
  | .fold _ onSuccess => onSuccess
  | .catchAll _ => fun p => return .succeed p
  | .either => fun p => return .succeed (.result (.ok p))
  | .mapError _ => fun p => return .succeed p

/-- The frame that stands below the effect while it is evaluated. -/
def frame (t : TypedHandler) : Frame := .fold t.recover t.apply

theorem node_eq (t : TypedHandler) (n : Node) : t.node n = .matchCause n t.recover t.apply := by cases t <;> rfl

/-- What a handler makes of a cause, in the turn in which its frame is popped and in those that follow. -/
inductive Answers (t : TypedHandler) (base : List Frame) (c : Cause Value) (u : World) (h : History) (q : Process) :
    Turn → Prop where
  /-- The callback is called with the leftmost typed failure. -/
  | called {m : Interpreter} {onFailure : Value → Action Node} {e : Value} (callback : t.onFailure? = some onFailure)
      (leftmost : c.failures.head? = some e) (popped : m.frames.frames = base) : Answers t base c u h q (m.goOn (onFailure e) u)
  /-- The effect succeeds with the leftmost typed failure. -/
  | reported {m : Interpreter} {e : Value} (either : t = .either) (leftmost : c.failures.head? = some e)
      (popped : m.frames.frames = base) (delivers : h.Delivers base q (.success (.result (.error e)))) :
      Answers t base c u h q { process := .next m (.succeed (.result (.error e))), world := u }
  /-- Without a typed failure nothing is called, and the cause is what the effect fails with. -/
  | passed {m : Interpreter} (unmapped : ∀ f, t ≠ .mapError f) (none : c.failures = []) (popped : m.frames.frames = base)
      (delivers : h.Delivers base q (.failure c)) : Answers t base c u h q { process := .next m (.fail c), world := u }
  /-- The typed failures are replaced from left to right, and the effect fails with what comes of it. -/
  | mapped {m : Interpreter} {f : Value → Action Value} {c' : Cause Value} {v : World} (mapError : t = .mapError f)
      (each : Action.Each f c.failures u c'.failures v) (shape : c'.shape = c.shape) (popped : m.frames.frames = base)
      (delivers : h.Delivers base q (.failure c')) : Answers t base c u h q { process := .next m (.fail c'), world := v }

variable {t : TypedHandler} {c : Cause Value} {m : Interpreter} {u : World} {fs : List Frame}

/-- The frame of a handler is popped with a failure. -/
theorem turn_frame (hm : m.frames.frames = t.frame :: fs) :
    ∃ m' : Interpreter, m'.frames.frames = fs ∧ Process.turn (.popping m (.failure c)) u = m'.goOn (t.recover c) u := by
  obtain ⟨s', hpop, hs⟩ := FrameStack.pop?_eq_some hm
  refine ⟨{ m with frames := s' }, hs, ?_⟩
  simp only [Process.turn, Interpreter.pop, hpop, frame]

theorem typed_of_head {onFailure : Value → Action Node} {e : Value} (he : c.failures.head? = some e) :
    Node.typed onFailure c = onFailure e := by
  simp only [Node.typed, Cause.failureOr_of_head he]

theorem typed_of_nil {onFailure : Value → Action Node} (hc : c.failures = []) :
    Node.typed onFailure c = return .fail c := by
  simp only [Node.typed, Cause.failureOr_of_nil hc]

/-- A handler that does not map failures gets the leftmost one, or passes the cause on. -/
theorem recover_typed (ht : ∀ f, t ≠ .mapError f) : ∃ onFailure, t.recover = Node.typed onFailure ∧
    (t.onFailure? = some onFailure ∨ t = .either ∧ onFailure = fun e => return .succeed (.result (.error e))) := by
  cases t with
  | fold onFailure onSuccess => exact ⟨onFailure, rfl, .inl rfl⟩
  | catchAll onFailure => exact ⟨onFailure, rfl, .inl rfl⟩
  | either => exact ⟨_, rfl, .inr ⟨rfl, rfl⟩⟩
  | mapError f => exact absurd rfl (ht f)

/-- What a handler goes on with is what it is supposed to. -/
theorem answers {R : World → World → Prop} {h : History} {q : Process} {v : World} (hm : m.frames.frames = fs)
    (hf : ∀ f, t = .mapError f → ∀ e ∈ c.failures, ∀ w p, ((f e).run w).1 ≠ .error p)
    (run : Process.Run R (m.goOn (t.recover c) u).process (m.goOn (t.recover c) u).world h q v) :
    t.Answers fs c u h q (m.goOn (t.recover c) u) := by
  by_cases ht : ∃ f, t = .mapError f
  · obtain ⟨f, rfl⟩ := ht
    obtain ⟨c', v', hrun, hshape, each⟩ := c.mapM_run (hf f rfl) u
    have hgo : m.goOn ((TypedHandler.mapError f).recover c) u = { process := .next m (.fail c'), world := v' } := by
      have hbind : ((TypedHandler.mapError f).recover c).run u = (.ok (.fail c'), v') := Action.run_bind_ok hrun _
      simp only [Interpreter.goOn, guarded, hbind]
    rw [hgo] at run ⊢
    exact .mapped rfl each hshape hm (Process.Run.delivers (e := .failure c') run hm)
  · have ht : ∀ f, t ≠ .mapError f := fun f hf => ht ⟨f, hf⟩
    obtain ⟨onFailure, hrecover, hcallback⟩ := recover_typed ht
    rw [hrecover] at run ⊢
    cases hc : c.failures with
    | nil =>
      rw [typed_of_nil hc] at run ⊢
      exact .passed ht hc hm (Process.Run.delivers (e := .failure c) run hm)
    | cons e es =>
      have he : c.failures.head? = some e := by rw [hc]; rfl
      rw [typed_of_head he] at run ⊢
      rcases hcallback with hcallback | ⟨rfl, rfl⟩
      · exact .called hcallback he hm
      · exact .reported rfl he hm (Process.Run.delivers (e := .success (.result (.error e))) run hm)

end TypedHandler

/-- Up to the first moment at which the frame of a handler is about to be popped, the interpreter is at work above it. One that has
observed interruption does not pop it with a failure. -/
theorem TypedHandler.above {R : World → World → Prop} {t : TypedHandler} {n : Node} {m m' : Interpreter}
    {w w₁ w₂ u : World} {h : History} {c : Cause Value}
    (run : Process.Run R (.next m (t.node n)) w ((.next m (t.node n), w₁) :: (.counted m.tick (t.node n), w₂) :: h)
      (.popping m' (.failure c)) u)
    (first : ∀ y ∈ h, ∀ m' o, y.1 = .popping m' o → m'.frames.frames ≠ t.frame :: m.frames.frames) :
    ∀ y ∈ h, y.1.Above (t.frame :: m.frames.frames) := by
  have run₁ := run.after (i := 1) rfl
  have ho : w₂.isInterrupted m.tick.token = false := by
    refine Bool.eq_false_iff.mpr fun ho => ?_
    simp only [Process.turn, ho, if_true] at run₁
    have hi := (run₁.snoc rfl).throughout (P := Process.Interrupted) (fun q v _ hq => Process.turn_interrupted hq v) trivial
    exact hi (.popping m' (.failure c), u) (by simp)
  rw [Process.turn_counted ho, t.node_eq] at run₁
  have hframes : (m.tick.push t.frame).frames.frames = t.frame :: m.frames.frames := rfl
  rcases Process.Run.comes (I := fun _ => True) (fun _ _ _ _ => trivial) run₁ (.next hframes) (List.cons_ne_nil _ _)
    (fun _ _ _ _ => trivial) trivial with ⟨hall, -, -⟩ | ⟨h₁, h₂, m₁, o, w', rfl, hall, hf, -, -, run₂⟩
  · exact hall
  · rcases run₂.starts rfl with ⟨rfl, -⟩ | ⟨w'', h₃, rfl, -⟩
    · rwa [List.append_nil]
    · exact absurd hf (first (.popping m₁ o, w'') (by simp) m₁ o rfl)

/-- An effect is run with a typed handler and comes to a failure: for the first time the frame of the handler is about to be
popped, and it is popped with this cause. Up to then the interpreter has been at work above that frame. In this turn the handler
is called, and nothing else is, and what it makes of the cause is told by `TypedHandler.Answers`. A mapping must not panic on
the failures of the cause. -/
theorem typed_failures_handled {R : World → World → Prop} {t : TypedHandler} {n : Node} {m m' : Interpreter}
    {w w₁ w₂ u v : World} {h h' : History} {c : Cause Value} {q : Process}
    (run : Process.Run R (.next m (t.node n)) w
      ((.next m (t.node n), w₁) :: (.counted m.tick (t.node n), w₂) :: h ++ (.popping m' (.failure c), u) :: h') q v)
    (first : ∀ y ∈ h, ∀ m' o, y.1 = .popping m' o → m'.frames.frames ≠ t.frame :: m.frames.frames)
    (comes : m'.frames.frames = t.frame :: m.frames.frames)
    (mapping : ∀ f, t = .mapError f → ∀ e ∈ c.failures, ∀ w p, ((f e).run w).1 ≠ .error p) :
    (∀ y ∈ h, y.1.Above (t.frame :: m.frames.frames)) ∧
      (Process.popping m' (.failure c)).calls u = [.recover t.recover c] ∧
        t.Answers m.frames.frames c u h' q (Process.turn (.popping m' (.failure c)) u) := by
  obtain ⟨run₁, run₂⟩ := run.split
  obtain ⟨m₁, hm₁, hturn⟩ := TypedHandler.turn_frame (c := c) (u := u) comes
  rw [hturn] at run₂ ⊢
  refine ⟨TypedHandler.above run₁ first, ?_, TypedHandler.answers hm₁ mapping run₂⟩
  simp [Process.calls, comes, TypedHandler.frame, Frame.calls]

/-- A cause with a defect and two typed failures. -/
def mixedCause (a b : Value) : Cause Value := .then (.die (.msg "lost")) (.both (.fail a) (.fail b))

/-- A mapping that writes the failures into the log and marks them. -/
def markFailures : TypedHandler := .mapError fun e => do
  Action.perform (.log e)
  return .arr [e]

/-- An effect that fails with such a cause, with that mapping. -/
def markedNode : Node := markFailures.node (.fail (mixedCause (.int 1) (.int 2)))

/-- A handler of typed failures that marks each failure: both failures of the cause are mapped, from left to right, and the
cause keeps its shape. -/
theorem typed_failures_handled_marked :
    ∃ (m : Interpreter) (u v : World) (h : History),
      Process.Run Eq (.start markedNode (.plain .null) 0 9) (World.newToken default).2 (soloRun markedNode).1
          (.settled (.failure (mixedCause (.arr [.int 1]) (.arr [.int 2])))) v ∧
        v.log = #[.int 1, .int 2] ∧
        markFailures.Answers [] (mixedCause (.int 1) (.int 2)) u h
          (.settled (.failure (mixedCause (.arr [.int 1]) (.arr [.int 2]))))
          (Process.turn (.popping m (.failure (mixedCause (.int 1) (.int 2)))) u) := by
  have run : Process.Run Eq (.start markedNode (.plain .null) 0 9) (World.newToken default).2 (soloRun markedNode).1
      (.settled (.failure (mixedCause (.arr [.int 1]) (.arr [.int 2])))) (soloRun markedNode).2.2 :=
    Process.alone_run 40 _ _
  have first : ∀ y ∈ ((soloRun markedNode).1.drop 2).take 2, ∀ m o, y.1 = .popping m o →
      m.frames.frames ≠ markFailures.frame :: [] := by
    refine List.forall_mem_cons.mpr ⟨nofun, List.forall_mem_cons.mpr ⟨nofun, List.forall_mem_nil _⟩⟩
  have mapping : ∀ f, markFailures = .mapError f → ∀ e ∈ (mixedCause (.int 1) (.int 2)).failures, ∀ w p,
      ((f e).run w).1 ≠ .error p := by
    intro f hf e _ w p
    obtain rfl := TypedHandler.mapError.inj hf
    nofun
  have handled := typed_failures_handled (t := markFailures) (n := .fail (mixedCause (.int 1) (.int 2)))
    (m := { env := .plain .null, token := 0, interval := 9 }) (h := ((soloRun markedNode).1.drop 2).take 2) run first
    rfl mapping
  exact ⟨_, _, _, _, run, rfl, handled.2.2⟩

end Interruptible
