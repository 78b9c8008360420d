import Interruptible.Proofs.Cause.Composition
import Interruptible.Proofs.Machine.Calls
import Interruptible.Proofs.Machine.Ending

/-!
# Failures of finalizers

Where the cause goes with which a finalizer fails. It takes one of three ways, depending on what the interpreter was popping
frames with. It is appended to a failure, and stays part of it until a handler gets it or the interpreter settles with it. It
is kept for the exit of an interpreter that has observed interruption. Or it takes the place of a value, as a node that fails
with it: then the interpreter looks at its token before it takes that node, and if the token has been tripped in the meantime
the node is given up, and the cause with it (`finalizer_failure_kept`).
-/

namespace Interruptible

/-- A process that calls a handler with a cause that this one is part of. -/
def Process.Hands (fc : Cause Value) (p : Process) (w : World) : Prop :=
  ∃ m c recover, p = .popping m (.failure c) ∧ p.calls w = [.recover recover c] ∧ fc.Sequenced c

/-- A cause that holds something is handed to a handler in the course of these turns, or it is part of the exit that they lead
to. -/
def History.Keeps (h : History) (x : Exit Value Payload) (fc : Cause Value) : Prop :=
  fc.isEmpty = true ∨ (∃ y ∈ h, Process.Hands fc y.1 y.2) ∨ ∃ c, x = .failure c ∧ fc.Sequenced c

/-- A finalizer has failed before this turn while its interpreter was popping frames with a value, and when the interpreter
looks at its token next, it finds the token tripped. -/
def History.GivesUp (h : History) (t : TokenId) (i : Nat) : Prop :=
  ∃ m p e u m' n u', h[i]? = some (.finalizing m (.value p) (.settled e), u) ∧
    h[i + 2]? = some (.counted m' n, u') ∧ u'.isInterrupted t = true

/-- A process that pops frames with a failure that this cause is part of. -/
def Process.Bears (fc : Cause Value) (p : Process) : Prop := ∃ m c, p.Pops m (.failure c) ∧ fc.Sequenced c

variable {fc : Cause Value}

/-- A failure is borne until a handler gets it or the interpreter settles with it. -/
theorem Process.turn_bears {p : Process} (ha : fc.isEmpty = false) (hp : p.Bears fc) (w : World) :
    (p.turn w).process.Bears fc ∨ p.Hands fc w ∨ ∃ c, (p.turn w).process = .settled (.failure c) ∧ fc.Sequenced c := by
  obtain ⟨m, c, hpops, hc⟩ := hp
  match p, hpops with
  | .popping _ _, ⟨rfl, rfl⟩ =>
    cases hf : m.frames.frames with
    | nil =>
      refine .inr (.inr ⟨c, ?_, hc⟩)
      simp only [turn, Interpreter.pop_nil hf]
      rfl
    | cons f fs =>
      obtain ⟨s', hpop, -⟩ := FrameStack.pop?_eq_some hf
      simp only [turn, Interpreter.pop, hpop]
      cases f with
      | finalize n => exact .inl ⟨_, c, ⟨rfl, rfl⟩, hc⟩
      | restore env => exact .inl ⟨_, c, ⟨rfl, rfl⟩, hc⟩
      | apply k => exact .inl ⟨_, c, ⟨rfl, rfl⟩, hc⟩
      | fold recover k => exact .inr (.inl ⟨m, c, recover, rfl, by simp [calls, hf, Frame.calls], hc⟩)
  | .finalizing _ _ child, ⟨rfl, rfl⟩ =>
    cases hx : child.exit? with
    | none =>
      rw [turn_finalizing m _ hx]
      exact .inl ⟨m, c, ⟨rfl, rfl⟩, hc⟩
    | some e =>
      obtain rfl := exit?_eq_some hx
      cases e with
      | success p => exact .inl ⟨m, c, ⟨rfl, rfl⟩, hc⟩
      | failure fc' => exact .inl ⟨m, _, ⟨rfl, rfl⟩, hc.andThen_left ha fc'⟩

namespace Process.Run

variable {R : World → World → Prop} {p q : Process} {w v : World} {h : History} {x : Exit Value Payload}

/-- The runs of an interpreter that bears a failure. -/
theorem keeps_of_bears (ha : fc.isEmpty = false) (run : Run R p w h q v) (hq : q = .settled x) (hp : p.Bears fc) :
    h.Keeps x fc := by
  induction run with
  | done p w =>
    subst hq
    obtain ⟨m, c, hpops, -⟩ := hp
    exact absurd hpops id
  | @turn p q w v h hn run ih =>
    rcases turn_bears ha hp w with hbears | hhands | ⟨c, hsettled, hc⟩
    · rcases ih hq hbears with hempty | ⟨y, hy, hhands⟩ | hexit
      · exact .inl hempty
      · exact .inr (.inl ⟨y, List.mem_cons_of_mem _ hy, hhands⟩)
      · exact .inr (.inr hexit)
    · exact .inr (.inl ⟨_, List.mem_cons_self, hhands⟩)
    · obtain ⟨-, hq'⟩ := run.of_settled hsettled
      exact .inr (.inr ⟨c, Process.settled.inj (hq.symm.trans hq'), hc⟩)
  | moved _ _ ih => exact ih hq hp

/-- An interpreter that has not observed interruption has no failures to report. -/
theorem suppressed_eq_empty {n : Node} {env : Environment} {t : TokenId} {k : Nat}
    (run : Run R (.start n env t k) w h q v) :
    ∀ y ∈ h, y.1.Interrupted ∨ ∀ m, y.1.interpreter? = some m → m.suppressed = .empty := by
  refine run.throughout (P := fun q => q.Interrupted ∨ ∀ m, q.interpreter? = some m → m.suppressed = .empty)
    (fun q v _ hq => ?_) (.inr fun m hm => by rw [← Option.some.inj hm])
  rcases hq with hi | hs
  · exact .inl (turn_interrupted hi v)
  · by_cases hi : (q.turn v).process.Interrupted
    · exact .inl hi
    · refine .inr fun m' hm' => ?_
      obtain ⟨m, hm, -, hsame | hi'⟩ := turn_interpreter hm'
      · rw [hsame, hs m hm]
      · exact absurd hi' hi

end Process.Run

theorem History.Keeps.mono {h h' : History} {x : Exit Value Payload} (hk : h.Keeps x fc) (hs : h.Sublist h') :
    h'.Keeps x fc :=
  hk.imp_right (Or.imp_left fun ⟨y, hy, hhands⟩ => ⟨y, hs.subset hy, hhands⟩)

/-- A failure that has taken the place of a value is given up if the interpreter finds its token tripped when it looks at it
next, and is borne otherwise. -/
theorem Process.Run.fails {R : World → World → Prop} {m : Interpreter} {w v : World} {h : History} {x : Exit Value Payload}
    (run : Run R (.next m (.fail fc)) w h (.settled x) v) :
    ∃ u, h[1]? = some (.counted m.tick (.fail fc), u) ∧
      (u.isInterrupted m.token = true →
          x = .failure (Cause.interrupt.andThen (h.finalizerFailures.foldl Cause.andThen m.suppressed))) ∧
        (u.isInterrupted m.token = false → h.Keeps x fc) := by
  have always : ∀ a b : World, R a b → True → True := fun _ _ _ _ => trivial
  obtain ⟨w₁, h₁, rfl, -, run₁⟩ := run.uncons always rfl nofun trivial
  rw [(turn_next m _ w₁).1] at run₁
  obtain ⟨u, h₂, rfl, -, run₂⟩ := run₁.uncons always rfl nofun trivial
  refine ⟨u, rfl, fun ht => ?_, fun ht => ?_⟩
  · have hpops : (Process.turn (.counted m.tick (.fail fc)) u).process.Pops m.tick .interruption := by
      have ht' : u.isInterrupted m.tick.token = true := ht
      simp only [Process.turn, ht']
      exact ⟨rfl, rfl⟩
    exact run₂.exit_of_interrupted (m := m.tick) hpops
  · rw [turn_counted (m := m.tick) ht] at run₂
    by_cases ha : fc.isEmpty = true
    · exact .inl ha
    · have hbears : (m.tick.take (.fail fc) u).process.Bears fc := ⟨_, fc, ⟨rfl, rfl⟩, .whole⟩
      have hk := run₂.keeps_of_bears (Bool.eq_false_iff.mpr ha) rfl hbears
      exact hk.mono ((List.sublist_cons_self _ _).trans (List.sublist_cons_self _ _))

/-- A finalizer of an interpreter that settles fails. If the interpreter was popping frames with a value, and finds its token
tripped when it looks at it next, the exit is interruption with the failures of the finalizers that run afterwards. In all
other cases a handler is called with a cause that the failure is part of, or the failure is part of the exit. -/
theorem finalizer_failure_kept {R : World → World → Prop} {n : Node} {env : Environment} {t : TokenId} {k i : Nat}
    {w u v : World} {h : History} {m : Interpreter} {o : Outcome} {x : Exit Value Payload}
    (run : Process.Run R (.start n env t k) w h (.settled x) v)
    (hi : h[i]? = some (.finalizing m o (.settled (.failure fc)), u)) :
    (h.GivesUp t i →
        x = .failure (Cause.interrupt.andThen ((History.finalizerFailures (h.drop (i + 1))).foldl Cause.andThen .empty))) ∧
      (¬ h.GivesUp t i → History.Keeps (h.drop (i + 1)) x fc) := by
  have htoken : m.token = t :=
    run.tokens_eq (fun m hm => by rw [← Option.some.inj hm]) _ (List.mem_of_getElem? hi) m rfl
  have hrun := run.after hi
  have hgive : h.GivesUp t i → ∃ p, o = .value p := by
    rintro ⟨m', p, e, u', -, -, -, hi', -, -⟩
    obtain ⟨hp, -⟩ := Prod.mk.inj (Option.some.inj (hi.symm.trans hi'))
    exact ⟨p, (Process.finalizing.inj hp).2.1⟩
  cases o with
  | value p =>
    have hs : m.suppressed = .empty :=
      (run.suppressed_eq_empty _ (List.mem_of_getElem? hi)).elim (fun hi => absurd hi id) fun hs => hs m rfl
    obtain ⟨u', hnext, hgone, hkept⟩ := hrun.fails
    rw [List.getElem?_drop] at hnext
    rw [htoken] at hgone hkept
    constructor
    · rintro ⟨_, _, _, _, m', n', u'', -, hnext', ht⟩
      obtain ⟨-, rfl⟩ := Prod.mk.inj (Option.some.inj (hnext.symm.trans hnext'))
      rw [hgone ht, hs]
    · intro hnot
      exact hkept (Bool.eq_false_iff.mpr fun ht => hnot ⟨m, p, _, u, _, _, u', hi, hnext, ht⟩)
  | failure c =>
    refine ⟨fun hg => (nomatch (hgive hg).choose_spec), fun _ => ?_⟩
    by_cases ha : fc.isEmpty = true
    · exact .inl ha
    · have ha := Bool.eq_false_iff.mpr ha
      exact hrun.keeps_of_bears ha rfl ⟨m, _, ⟨rfl, rfl⟩, Cause.Sequenced.whole.andThen_right c ha⟩
  | interruption =>
    refine ⟨fun hg => (nomatch (hgive hg).choose_spec), fun _ => ?_⟩
    by_cases ha : fc.isEmpty = true
    · exact .inl ha
    · have ha := Bool.eq_false_iff.mpr ha
      refine .inr (.inr ⟨_, hrun.exit_of_interrupted ⟨rfl, rfl⟩, ?_⟩)
      exact (Cause.Sequenced.foldl_andThen ha (.inl (.andThen_right m.suppressed .whole ha))).andThen_right .interrupt ha

/-- An effect whose finalizer fails, with an interrupt node as what it is attached to. -/
def failingCleanup : Node := .ensuring .interrupt (.fail (.fail (.str "close")))

theorem finalizer_failure_kept_failingCleanup :
    ∃ (h : History) (x : Exit Value Payload) (v : World) (m : Interpreter) (u : World),
      Process.Run Eq (.start failingCleanup (.plain .null) 0 9) (World.newToken default).2 h (.settled x) v ∧
        h[8]? = some (.finalizing m .interruption (.settled (.failure (.fail (.str "close")))), u) ∧
        History.Keeps (h.drop 9) x (.fail (.str "close")) := by
  have run : Process.Run Eq (.start failingCleanup (.plain .null) 0 9) (World.newToken default).2 (soloRun failingCleanup).1
      (.settled (.failure (.then .interrupt (.fail (.str "close"))))) (soloRun failingCleanup).2.2 :=
    Process.alone_run 40 _ _
  refine ⟨_, _, _, _, _, run, rfl, (finalizer_failure_kept run (i := 8) rfl).2 ?_⟩
  rintro ⟨_, _, _, _, _, _, _, hi, -, -⟩
  nomatch hi

/-- An effect that succeeds, and whose finalizer trips the token of the run and fails. -/
def trippingCleanup : Node :=
  .ensuring (.succeed .unit) (.chain tripping fun _ => return .fail (.fail (.str "close")))

/-- A finalizer fails, no handler is called, and the exit does not show it. -/
theorem finalizer_failure_lost :
    ∃ (h : History) (x : Exit Value Payload) (v : World) (m : Interpreter) (u : World),
      Process.Run Eq (.start trippingCleanup (.plain .null) 0 9) (World.newToken default).2 h (.settled x) v ∧
        h[10]? = some (.finalizing m (.value .unit) (.settled (.failure (.fail (.str "close")))), u) ∧
        ¬ History.Keeps (h.drop 11) x (.fail (.str "close")) := by
  have run : Process.Run Eq (.start trippingCleanup (.plain .null) 0 9) (World.newToken default).2 (soloRun trippingCleanup).1
      (.settled .interrupted) (soloRun trippingCleanup).2.2 :=
    Process.alone_run 40 _ _
  refine ⟨_, _, _, _, _, run, rfl, ?_⟩
  have hquiet : History.calls ((soloRun trippingCleanup).1.drop 11) = [] := rfl
  rintro (hempty | ⟨y, hy, m, c, recover, -, hcalls, -⟩ | ⟨c, hx, hc⟩)
  · nomatch hempty
  · have hnone := List.flatMap_eq_nil_iff.mp hquiet y hy
    rw [hcalls] at hnone
    nomatch hnone
  · obtain rfl := Exit.failure.inj hx
    nomatch hc

end Interruptible
