import Interruptible.Proofs.Machine.Frames

/-!
# How an interpreter ends

An interpreter comes to its exit by popping frames. What the exit is follows from the outcome that it pops them with and from
the failures of the finalizers that it runs meanwhile (`Process.Run.exit_of_pops`). Interruption is such an outcome; an
interpreter that has observed it settles with interruption, followed by the failures of the finalizers that have run since
(`Process.Run.exit_of_interrupted`).

An interpreter looks at its token before it takes a node, and not while it pops frames and runs finalizers. If its token is
tripped when it will not take a node any more, it settles as if nothing had happened; a token that is tripped at any earlier
moment makes it settle with interruption (`tripped_exit`).
-/

namespace Interruptible

/-- The interpreter of a process that has not settled. -/
def Process.interpreter? : Process → Option Interpreter
  | .next m _ | .counted m _ | .popping m _ | .finalizing m _ _ | .awaiting m _ | .joining m _ _ _ => some m
  | .settled _ => none

/-- The cause with which a finalizer of an interpreter has failed. -/
def Process.finalizerFailure? : Process → Option (Cause Value)
  | .finalizing _ _ (.settled e) => e.cause?
  | _ => none

/-- The causes with which the finalizers of an interpreter have failed in the course of its turns, in that order. -/
def History.finalizerFailures (h : History) : List (Cause Value) := h.filterMap fun y => y.1.finalizerFailure?

/-- The exit that an interpreter comes to with an outcome if its finalizers fail with these causes from now on. -/
def Interpreter.exitAfter (m : Interpreter) (o : Outcome) (failures : List (Cause Value)) : Exit Value Payload :=
  match o with
  | .value p => .success p
  | .failure c => .failure (failures.foldl Cause.andThen c)
  | .interruption => .failure (Cause.interrupt.andThen (failures.foldl Cause.andThen m.suppressed))

/-- An interpreter that pops frames with an outcome, or runs a finalizer in between. -/
def Process.Pops (m : Interpreter) (o : Outcome) : Process → Prop
  | .popping m' o' | .finalizing m' o' _ => m' = m ∧ o' = o
  | _ => False

/-- An interpreter that pops frames with a value or with a failure. -/
def Process.Concluding : Process → Prop
  | .popping _ o | .finalizing _ o _ => o ≠ .interruption
  | _ => False

/-! ## What an interpreter carries along -/

namespace Interpreter

variable (m : Interpreter) (w : World)

/-- A process is a state of an interpreter with this token and these failures to report, or it has settled. -/
def Carries (p : Process) : Prop :=
  ∀ m', p.interpreter? = some m' → m'.token = m.token ∧ m'.suppressed = m.suppressed

theorem carries_of_eq {p : Process} (m' : Interpreter) (h : p.interpreter? = some m') (ht : m'.token = m.token)
    (hs : m'.suppressed = m.suppressed) : m.Carries p := by
  intro m'' h'
  obtain rfl := Option.some.inj (h.symm.trans h')
  exact ⟨ht, hs⟩

/-- Taking a node changes neither the token nor the failures to report. -/
theorem take_carries (n : Node) : m.Carries (m.take n w).process := by
  have h := m.take_taken n w
  generalize (m.take n w).process = p at h ⊢
  cases h with
  | next n' ht hs hf => exact m.carries_of_eq _ rfl ht hs
  | popping | interrupt | refused | awaiting | joining => exact m.carries_of_eq _ rfl rfl rfl

/-- Popping a frame changes neither the token nor the failures to report. -/
theorem pop_carries (o : Outcome) : m.Carries (m.pop o w).process := by
  unfold pop
  split
  · exact fun m' h => nomatch h
  · split <;> exact m.carries_of_eq _ rfl rfl rfl

theorem Waited.carries {m : Interpreter} {p : Process} (h : m.Waited p) : m.Carries p := by
  cases h <;> exact m.carries_of_eq _ rfl rfl rfl

end Interpreter

/-- The token of an interpreter stays the same, and so do the failures that it has to report, unless it has been
interrupted. -/
theorem Process.turn_interpreter {p : Process} {w : World} {m' : Interpreter}
    (h : (p.turn w).process.interpreter? = some m') :
    ∃ m, p.interpreter? = some m ∧ m'.token = m.token ∧
      (m'.suppressed = m.suppressed ∨ (p.turn w).process.Interrupted) := by
  have of_carries : ∀ {m}, m.Carries (p.turn w).process → p.interpreter? = some m →
      ∃ m, p.interpreter? = some m ∧ m'.token = m.token ∧
        (m'.suppressed = m.suppressed ∨ (p.turn w).process.Interrupted) := fun hc hp =>
    ⟨_, hp, (hc m' h).1, Or.inl (hc m' h).2⟩
  cases p with
  | next m n =>
    refine of_carries (m.carries_of_eq m.tick ?_ rfl rfl) rfl
    rw [(turn_next m n w).1]
    rfl
  | counted m n =>
    refine of_carries ?_ rfl
    simp only [turn]
    split
    · exact m.carries_of_eq _ rfl rfl rfl
    · exact m.take_carries w n
  | popping m o => exact of_carries (m.pop_carries w o) rfl
  | finalizing m o child =>
    cases hx : child.exit? with
    | none =>
      refine of_carries (m.carries_of_eq m ?_ rfl rfl) rfl
      rw [turn_finalizing m o hx]
      rfl
    | some e =>
      obtain rfl := exit?_eq_some hx
      cases e with
      | success p => exact of_carries (m.carries_of_eq m rfl rfl rfl) rfl
      | failure fc =>
        cases o with
        | value p => exact of_carries (m.carries_of_eq m rfl rfl rfl) rfl
        | failure c => exact of_carries (m.carries_of_eq m rfl rfl rfl) rfl
        | interruption =>
          obtain rfl := Option.some.inj h
          exact ⟨m, rfl, rfl, Or.inr trivial⟩
  | awaiting m a => exact of_carries (m.pollAwaited_waited a w).carries rfl
  | joining m g seen rest =>
    refine of_carries ?_ rfl
    rcases rest with _ | ⟨q | e, rest⟩
    · exact (m.endRound_waited g _ w).carries
    · simp only [turn]
      split <;> exact m.carries_of_eq _ rfl rfl rfl
    · exact m.carries_of_eq _ rfl rfl rfl
  | settled e => cases h

/-! ## Popping frames -/

/-- A turn that pops a frame, or in which a finalizer is at work or ends, does not change what the interpreter comes to, unless
the interpreter goes on with a node. -/
theorem Process.turn_pops {p : Process} {m : Interpreter} {o : Outcome} (hp : p.Pops m o) (w : World) :
    (∃ m' o', (p.turn w).process.Pops m' o' ∧
        ∀ failures, m'.exitAfter o' failures = m.exitAfter o (p.finalizerFailure?.toList ++ failures)) ∨
      (p.turn w).process = .settled (m.exitAfter o p.finalizerFailure?.toList) ∨
        ∃ m' n, (p.turn w).process = .next m' n := by
  match p, hp with
  | .popping _ _, ⟨rfl, rfl⟩ =>
    cases hf : m.frames.frames with
    | nil =>
      refine Or.inr (Or.inl ?_)
      simp only [turn, Interpreter.pop_nil hf]
      cases o <;> rfl
    | cons f fs =>
      obtain ⟨s', hpop, -⟩ := FrameStack.pop?_eq_some hf
      simp only [turn, Interpreter.pop, hpop]
      cases f with
      | finalize n => exact Or.inl ⟨_, _, ⟨rfl, rfl⟩, fun _ => rfl⟩
      | restore env => exact Or.inl ⟨_, _, ⟨rfl, rfl⟩, fun _ => rfl⟩
      | apply k =>
        cases o with
        | value p => exact Or.inr (Or.inr ⟨_, _, rfl⟩)
        | failure c => exact Or.inl ⟨_, _, ⟨rfl, rfl⟩, fun _ => rfl⟩
        | interruption => exact Or.inl ⟨_, _, ⟨rfl, rfl⟩, fun _ => rfl⟩
      | fold recover k =>
        cases o with
        | value p => exact Or.inr (Or.inr ⟨_, _, rfl⟩)
        | failure c => exact Or.inr (Or.inr ⟨_, _, rfl⟩)
        | interruption => exact Or.inl ⟨_, _, ⟨rfl, rfl⟩, fun _ => rfl⟩
  | .finalizing _ _ child, ⟨rfl, rfl⟩ =>
    cases hx : child.exit? with
    | none =>
      have hnone : (finalizing m o child).finalizerFailure? = none := by
        cases child with
        | settled e => cases hx
        | _ => rfl
      rw [turn_finalizing m o hx, hnone]
      exact Or.inl ⟨_, _, ⟨rfl, rfl⟩, fun _ => rfl⟩
    | some e =>
      obtain rfl := exit?_eq_some hx
      cases e with
      | success p => exact Or.inl ⟨_, _, ⟨rfl, rfl⟩, fun _ => rfl⟩
      | failure fc =>
        cases o with
        | value p => exact Or.inr (Or.inr ⟨_, _, rfl⟩)
        | failure c => exact Or.inl ⟨_, _, ⟨rfl, rfl⟩, fun _ => rfl⟩
        | interruption => exact Or.inl ⟨_, _, ⟨rfl, rfl⟩, fun _ => rfl⟩

theorem History.finalizerFailures_cons (p : Process) (w : World) (h : History) :
    History.finalizerFailures ((p, w) :: h) = p.finalizerFailure?.toList ++ h.finalizerFailures := by
  unfold History.finalizerFailures
  cases hp : p.finalizerFailure? with
  | none => exact List.filterMap_cons_none hp
  | some c => exact List.filterMap_cons_some hp

namespace Process.Run

variable {R : World → World → Prop} {p q : Process} {w v : World} {h : History} {x : Exit Value Payload} {m : Interpreter}
  {o : Outcome}

/-- What has settled takes no turn. -/
theorem of_settled (run : Run R p w h q v) (hp : p = .settled x) : h = [] ∧ q = .settled x := by
  induction run with
  | done => exact ⟨rfl, hp⟩
  | turn hn => rw [hp] at hn; nomatch hn
  | moved _ _ ih => exact ih hp

/-- An interpreter that pops frames until it settles comes to the exit that its outcome and its finalizers say. -/
theorem exit_of_pops (run : Run R p w h q v) (hq : q = .settled x) (hp : p.Pops m o)
    (hpops : ∀ y ∈ h, ∃ m o, y.1.Pops m o) : x = m.exitAfter o h.finalizerFailures := by
  induction run generalizing m o with
  | done p w =>
    subst hq
    exact absurd hp id
  | @turn p q w v h hn run ih =>
    have hrest : ∀ y ∈ h, ∃ m o, y.1.Pops m o := fun y hy => hpops y (List.mem_cons_of_mem _ hy)
    rw [History.finalizerFailures_cons]
    rcases turn_pops hp w with ⟨m', o', hp', hexit⟩ | hsettled | ⟨m', n, hnext⟩
    · rw [ih hq hp' hrest, hexit]
    · obtain ⟨rfl, hq'⟩ := run.of_settled hsettled
      obtain rfl := Process.settled.inj (hq.symm.trans hq')
      simp [History.finalizerFailures]
    · rw [hnext] at run
      obtain ⟨w', h', rfl, -, -⟩ := run.uncons (I := fun _ => True) (fun _ _ _ _ => trivial) rfl (by rw [hq]; nofun) trivial
      obtain ⟨m'', o'', hp''⟩ := hrest _ List.mem_cons_self
      exact absurd hp'' id
  | moved _ _ ih => exact ih hq hp hpops

/-- An interrupted process pops its frames with interruption, or runs a finalizer in between. -/
theorem pops_of_interrupted (hi : p.Interrupted) (hp : p.exit? = none) : ∃ m, p.Pops m .interruption := by
  match p, hi with
  | .popping m .interruption, _ => exact ⟨m, rfl, rfl⟩
  | .finalizing m .interruption child, _ => exact ⟨m, rfl, rfl⟩
  | .settled e, _ => nomatch hp

/-- An interpreter that has observed interruption settles with it, and with the failures of the finalizers that have run
since. -/
theorem exit_of_interrupted (run : Run R p w h (.settled x) v) (hp : p.Pops m .interruption) :
    x = .failure (Cause.interrupt.andThen (h.finalizerFailures.foldl Cause.andThen m.suppressed)) := by
  have hi : p.Interrupted := by
    match p, hp with
    | .popping _ _, ⟨_, rfl⟩ => trivial
    | .finalizing _ _ _, ⟨_, rfl⟩ => trivial
  refine run.exit_of_pops rfl hp fun y hy => ?_
  have hy' := run.throughout (P := Process.Interrupted) (fun q v _ hq => turn_interrupted hq v) hi y hy
  obtain ⟨m', hm'⟩ := pops_of_interrupted hy' (run.unsettled y hy)
  exact ⟨m', _, hm'⟩

end Process.Run

/-! ## Tokens that have been tripped -/

theorem Process.interpreter?_eq_some {p : Process} (hp : p.exit? = none) : ∃ m, p.interpreter? = some m := by
  cases p with
  | settled e => nomatch hp
  | _ => exact ⟨_, rfl⟩

/-- An interpreter that has waited has not come to a value or a failure yet. -/
theorem Interpreter.Waited.unsettled {m : Interpreter} {p : Process} (h : m.Waited p) :
    p.exit? = none ∧ ¬ p.Concluding := by
  cases h with
  | interrupted => exact ⟨rfl, fun h => h rfl⟩
  | next | awaiting | joining => exact ⟨rfl, id⟩

/-- An interpreter that finds its token tripped when it is about to take a node is interrupted; one that waits or counts an
instruction gets there. -/
theorem Process.turn_tripped {p : Process} {m : Interpreter} {w : World} (hm : p.interpreter? = some m)
    (ht : w.isInterrupted m.token = true) (hp : ∀ m o, ¬ p.Pops m o) :
    (p.turn w).process.exit? = none ∧ ¬ (p.turn w).process.Concluding := by
  cases p with
  | next m n =>
    rw [(turn_next m n w).1]
    exact ⟨rfl, id⟩
  | counted m' n =>
    obtain rfl := Option.some.inj hm
    simp only [turn, ht]
    exact ⟨rfl, fun h => h rfl⟩
  | popping m o => exact absurd ⟨rfl, rfl⟩ (hp m o)
  | finalizing m o child => exact absurd ⟨rfl, rfl⟩ (hp m o)
  | awaiting m a => exact (m.pollAwaited_waited a w).unsettled
  | joining m g seen rest =>
    rcases rest with _ | ⟨q | e, rest⟩
    · exact (m.endRound_waited g _ w).unsettled
    · simp only [turn]
      split <;> exact ⟨rfl, id⟩
    · exact ⟨rfl, id⟩
  | settled e => cases hm

namespace Process.Run

variable {R : World → World → Prop} {p q : Process} {w v : World} {h : History} {x : Exit Value Payload}

/-- The token of an interpreter never changes. -/
theorem tokens_eq {t : TokenId} (run : Run R p w h q v) (hp : ∀ m, p.interpreter? = some m → m.token = t) :
    ∀ y ∈ h, ∀ m, y.1.interpreter? = some m → m.token = t := by
  refine run.throughout (P := fun q => ∀ m, q.interpreter? = some m → m.token = t) (fun q v _ hq m' hm' => ?_) hp
  obtain ⟨m, hm, htoken, -⟩ := turn_interpreter hm'
  rw [htoken, hq m hm]

/-- An interpreter whose token has been tripped settles with interruption, unless it is about to conclude with a value or a
failure. -/
theorem interrupted_of_tripped (hR : ∀ a b, R a b → World.Later a b) (run : Run R p w h q v) {m : Interpreter}
    (hq : q = .settled x) (hm : p.interpreter? = some m) (ht : w.isInterrupted m.token = true) (hp : ¬ p.Concluding) :
    ∃ suppressed, x = .failure (Cause.interrupt.andThen suppressed) := by
  induction run generalizing m with
  | done p w =>
    rw [hq] at hm
    nomatch hm
  | @turn p q w v h hn run ih =>
    subst hq
    by_cases hpops : ∃ m o, p.Pops m o
    · obtain ⟨m', o, hpops⟩ := hpops
      have ho : p.Pops m' .interruption := by
        match p, hpops with
        | .popping _ _, ⟨rfl, _⟩ => exact ⟨rfl, Classical.not_not.mp hp⟩
        | .finalizing _ _ _, ⟨rfl, _⟩ => exact ⟨rfl, Classical.not_not.mp hp⟩
      exact ⟨_, (Run.turn hn run).exit_of_interrupted ho⟩
    · obtain ⟨hn', hp'⟩ := turn_tripped hm ht fun m o h => hpops ⟨m, o, h⟩
      obtain ⟨m', hm'⟩ := interpreter?_eq_some hn'
      obtain ⟨m'', hm'', htoken, -⟩ := turn_interpreter hm'
      obtain rfl := Option.some.inj (hm.symm.trans hm'')
      refine ih rfl hm' ?_ hp'
      rw [htoken]
      exact (turn_later p w).latched _ ht
  | moved hmove _ ih => exact ih hq hm ((hR _ _ hmove).latched _ ht) hp

end Process.Run

/-- Interruption stays among the leaves of a cause, whatever comes after it. -/
theorem Cause.isInterrupted_interrupt_andThen {ε : Type} (c : Cause ε) : (Cause.interrupt.andThen c).isInterrupted = true := by
  unfold Cause.andThen
  cases c.isEmpty <;> rfl

/-- A run whose token is tripped at some moment before it settles. If the interpreter is not concluding from there on, the run
ends with interruption. Otherwise the interpreter does not look at its token any more, and the run ends as its outcome and its
remaining finalizers say. -/
theorem tripped_exit {R : World → World → Prop} (hR : ∀ a b, R a b → World.Later a b) {n : Node} {env : Environment}
    {t : TokenId} {k i : Nat} {w u v : World} {h : History} {p : Process} {x : Exit Value Payload}
    (run : Process.Run R (.start n env t k) w h (.settled x) v) (hi : h[i]? = some (p, u)) (ht : u.isInterrupted t = true) :
    ((∃ y ∈ h.drop i, ¬ y.1.Concluding) → x.isInterrupted = true) ∧
      ((∀ y ∈ h.drop i, y.1.Concluding) →
        ∃ m o, p.Pops m o ∧ o ≠ .interruption ∧ x = m.exitAfter o (History.finalizerFailures (h.drop i))) := by
  have htokens := run.tokens_eq (t := t) fun m hm => by rw [← Option.some.inj hm]
  have hdrop := (run.drop (I := fun _ => True) (fun _ _ _ _ => trivial) hi (fun _ _ _ => trivial) trivial).2
  constructor
  · rintro ⟨y, hy, hnot⟩
    obtain ⟨j, hj⟩ := List.mem_iff_getElem?.mp hy
    obtain ⟨hty, hrun⟩ := hdrop.drop (I := fun w => w.isInterrupted t = true)
      (fun _ _ hm ht => (hR _ _ hm).latched t ht) hj (fun z _ hz => (Process.turn_later z.1 z.2).latched t hz) ht
    obtain ⟨m, hm⟩ := Process.interpreter?_eq_some (run.unsettled y (List.mem_of_mem_drop hy))
    rw [← htokens y (List.mem_of_mem_drop hy) m hm] at hty
    obtain ⟨suppressed, rfl⟩ := hrun.interrupted_of_tripped hR rfl hm hty hnot
    exact Cause.isInterrupted_interrupt_andThen suppressed
  · intro hconcluding
    have pops : ∀ y ∈ h.drop i, ∃ m o, y.1.Pops m o ∧ o ≠ .interruption := by
      intro y hy
      have hy' := hconcluding y hy
      obtain ⟨q, u⟩ := y
      cases q with
      | popping m o => exact ⟨m, o, ⟨rfl, rfl⟩, hy'⟩
      | finalizing m o child => exact ⟨m, o, ⟨rfl, rfl⟩, hy'⟩
      | _ => exact absurd hy' id
    have hfirst : (p, u) ∈ h.drop i := List.mem_of_getElem? (i := 0) (by rw [List.getElem?_drop]; exact hi)
    obtain ⟨m, o, hp, ho⟩ := pops (p, u) hfirst
    refine ⟨m, o, hp, ho, hdrop.exit_of_pops rfl hp fun y hy => ?_⟩
    obtain ⟨m', o', hy', -⟩ := pops y hy
    exact ⟨m', o', hy'⟩

/-- An effect that trips the token of the run and succeeds nevertheless. -/
def tripping : Node := .succeedLazy do
  Action.perform (.interrupt 0)
  return .ok .unit

/-- A run of an effect with nothing around it. -/
def soloRun (n : Node) : History × Process × World :=
  Process.alone 40 (.start n (.plain .null) 0 9) (World.newToken default).2

/-- An effect that trips its own token and then succeeds ends with interruption. -/
theorem tripped_exit_tripping :
    ∃ (h : History) (p : Process) (u v : World) (x : Exit Value Payload),
      Process.Run Eq (.start tripping (.plain .null) 0 9) (World.newToken default).2 h (.settled x) v ∧
        h[2]? = some (p, u) ∧ u.isInterrupted 0 = true ∧ x.isInterrupted = true := by
  have run : Process.Run Eq (.start tripping (.plain .null) 0 9) (World.newToken default).2 (soloRun tripping).1
      (.settled .interrupted) (soloRun tripping).2.2 := Process.alone_run 40 _ _
  refine ⟨_, _, _, _, _, run, rfl, rfl, ?_⟩
  refine (tripped_exit (R := Eq) (i := 2) (fun _ _ h => h ▸ .refl _) run rfl rfl).1
    ⟨_, List.mem_of_getElem? (i := 0) rfl, ?_⟩
  exact id

/-- A run whose token is tripped by its last finalizer, before it settles, and that succeeds nevertheless. -/
theorem tripped_unnoticed :
    ∃ (h : History) (p : Process) (u v : World),
      Process.Run Eq (.start (.ensuring (.succeed .unit) tripping) (.plain .null) 0 9) (World.newToken default).2 h
          (.settled (.success .unit)) v ∧
        h[11]? = some (p, u) ∧ u.isInterrupted 0 = true :=
  ⟨(soloRun (.ensuring (.succeed .unit) tripping)).1, _, _, _, Process.alone_run 40 _ _, rfl, rfl⟩

end Interruptible
