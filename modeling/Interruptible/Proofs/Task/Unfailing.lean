import Interruptible.Proofs.Machine.Unfailing
import Interruptible.Proofs.Task.Panics

/-!
# Calls of effects that cannot fail

In a system in which no task is under way a call of an effect that cannot fail is on its own: it starts a run of the effect and
waits for it, and every poll, whichever task is polled, keeps the run about to come to the payload of the effect
(`System.Calling.poll`). So once the call has ended, it has reported that payload, and no task is under way again
(`System.Calling.await`).
-/

namespace Interruptible

/-- The job of a run that comes to a payload. -/
def Job.Brings (w : World) (p : Payload) : Job → Prop
  | .launched q | .running q => q.Brings w p
  | .ended (.exit e) => e = .success p
  | _ => False

namespace System

/-- A task that is not under way. -/
def Over (s : System) (t : TaskId) : Prop := ∀ j, s.job? t = some j → j.hasEnded = true

/-- No task is under way. -/
def AtRest (s : System) : Prop := ∀ t, s.Over t

/-- A task calls an effect that comes to a payload, and nothing else is under way. -/
inductive Calling (t : TaskId) (p : Payload) (s : System) : Prop where
  /-- The run has not been started. -/
  | called {r : Runtime} {n : Node} {env : Environment} (ht : s.job? t = some (.call r n env none)) (hn : n.Brings p)
      (ho : ∀ u, u ≠ t → s.Over u)
  /-- The run is on its way, or has ended. -/
  | reporting (run : TaskId) {j : Job} (ht : s.job? t = some (.reporting run)) (hr : s.job? run = some j)
      (hj : j.Brings s.world p) (ho : ∀ u, u ≠ t → u ≠ run → s.Over u)
  | reported (ht : s.job? t = some (.ended (.reported (.ok p)))) (ho : ∀ u, u ≠ t → s.Over u)

variable {s s' : System} {t u : TaskId} {p : Payload} {n : Node}

theorem Over.of_job? (h : s.Over u) (hj : s'.job? u = s.job? u) : s'.Over u := fun j h' => h j (by rw [← hj, h'])

theorem over_of_ended {e : Ending} (h : s.job? u = some (.ended e)) : s.Over u := by
  intro j hj
  rw [h] at hj
  obtain rfl := Option.some.inj hj
  rfl

/-! ## Tasks that come and go keep calm -/

theorem spawn_calm (s : System) (j : Job) (c : Option TrackerId) : s.world.Calm (s.spawn j c).2.world :=
  (World.Calm.newOperation s.world).1.trans (.of_steady (.wake _ _))

theorem leave_calm (s : System) (t : TaskId) : s.world.Calm (s.leave t).world := by
  have hidle : World.Steady s.world { s.world with current := none, wokenMeanwhile := false } := ⟨rfl, rfl⟩
  unfold leave
  split
  · exact .of_steady (hidle.trans (.wake _ _))
  · exact .of_steady hidle

namespace Calling

/-- Whatever else changes in the system, as long as it is calm. -/
theorem moved (h : s.Calling t p) (hs : s'.tasks = s.tasks) (hc : s.world.Calm s'.world) : s'.Calling t p := by
  have hjob := job?_of_tasks hs
  cases h with
  | called ht hn ho => exact .called ((hjob t).trans ht) hn fun u hu => (ho u hu).of_job? (hjob u)
  | @reporting run j ht hr hj ho =>
    refine .reporting run ((hjob t).trans ht) ((hjob run).trans hr) ?_ fun u hu hu' => (ho u hu hu').of_job? (hjob u)
    match j, hj with
    | .launched q, hq => exact Process.Brings.calm hc hq
    | .running q, hq => exact Process.Brings.calm hc hq
    | .ended (.exit e), he => exact he
  | reported ht ho => exact .reported ((hjob t).trans ht) fun u hu => (ho u hu).of_job? (hjob u)

/-- A call that is made when nothing is under way. -/
theorem start (hs : s.AtRest) (hn : n.Brings p) (r : Runtime) (env : Environment) :
    (s.spawn (.call r n env none)).2.Calling s.tasks.size p := by
  have ht : (s.spawn (.call r n env none)).2.job? s.tasks.size = some (.call r n env none) := by rw [job?_spawn, if_pos rfl]
  refine .called ht hn ?_
  intro u hu
  exact (hs u).of_job? (by rw [job?_spawn, if_neg hu])

/-- The call is polled for the first time: the run starts under a token of its own. -/
theorem call {r : Runtime} {env : Environment} (ht : s.job? t = some (.call r n env none)) (hn : n.Brings p)
    (ho : ∀ u, u ≠ t → s.Over u) (turns : Nat) (op : OperationId) :
    (s.pollJob turns t op (.call r n env none)).Calling t p := by
  obtain ⟨task, htask, -⟩ := Option.map_eq_some_iff.mp ht
  have hne : t ≠ s.tasks.size := Nat.ne_of_lt (Array.getElem?_eq_some_iff.mp htask).1
  have hpoll : s.pollJob turns t op (.call r n env none) =
      ((s.execute r n env none).2.onWorld (·.park (.task s.tasks.size) op)).setJob t (.reporting s.tasks.size) := rfl
  have hexecute (u : TaskId) : (s.execute r n env none).2.job? u =
      if u = s.tasks.size then some (.launched (.start n env s.world.newToken.1 r.interval)) else s.job? u :=
    job?_spawn _ _ _ u
  have hjob {u : TaskId} (hu : u ≠ t) : (s.pollJob turns t op (.call r n env none)).job? u =
      if u = s.tasks.size then some (.launched (.start n env s.world.newToken.1 r.interval)) else s.job? u := by
    rw [hpoll, job?_setJob, if_neg hu.symm]
    exact hexecute u
  have hstarted : s.world.newToken.2.Calm (s.execute r n env none).2.world :=
    spawn_calm ((s.inWorld World.newToken).2.track r.registry).2 _ _
  have hparked : s.world.newToken.2.Calm (s.pollJob turns t op (.call r n env none)).world :=
    hstarted.trans (.of_steady (.park _ _ op))
  have hopen := hparked.token _ (World.Calm.newToken s.world).2
  have hbrings : (Process.start n env s.world.newToken.1 r.interval).Brings
      (s.pollJob turns t op (.call r n env none)).world p := .next hopen hn (.nil p)
  have hcall : ((s.execute r n env none).2.onWorld (·.park (.task s.tasks.size) op)).job? t = s.job? t :=
    (hexecute t).trans (if_neg hne)
  refine .reporting s.tasks.size (j := .launched _) ?_ ((hjob hne.symm).trans (if_pos rfl)) hbrings fun u hu hu' => ?_
  · rw [hpoll, job?_setJob, if_pos rfl, hcall, ht, Option.map_some]
  · exact (ho u hu).of_job? (by rw [hjob hu, if_neg hu'])

/-- The run is polled. -/
theorem pollRun {run : TaskId} {j : Job} {q : Process} (ht : s.job? t = some (.reporting run)) (hr : s.job? run = some j)
    (hne : run ≠ t) (hq : q.Brings s.world p) (ho : ∀ u, u ≠ t → u ≠ run → s.Over u) (turns : Nat) :
    (s.pollRun turns run q).Calling t p := by
  obtain ⟨task, htask, -⟩ := Option.map_eq_some_iff.mp hr
  obtain ⟨hbrings, hc⟩ := hq.poll turns
  unfold System.pollRun inWorld
  dsimp only
  split
  · rename_i e he
    rw [he] at hbrings
    cases hbrings
    refine .reporting run (j := .ended (.exit (.success p))) ?_ (job?_finish (by exact htask) _) rfl fun u hu hu' => ?_
    · rw [job?_finish_of_ne _ hne.symm]
      exact ht
    · exact (ho u hu hu').of_job? (job?_finish_of_ne _ hu' _)
  · refine .reporting run (j := .running (q.poll turns s.world).1) ?_ ?_ hbrings fun u hu hu' => ?_
    · rw [job?_setJob, if_neg hne]
      exact ht
    · rw [job?_setJob, if_pos rfl]
      exact congrArg (Option.map fun _ => _) hr
    · refine (ho u hu hu').of_job? ?_
      rw [job?_setJob, if_neg hu'.symm]
      rfl

/-- The call looks whether its run has ended. -/
theorem report {run : TaskId} {j : Job} (ht : s.job? t = some (.reporting run)) (hr : s.job? run = some j)
    (hj : j.Brings s.world p) (ho : ∀ u, u ≠ t → u ≠ run → s.Over u) (turns : Nat) (op : OperationId) :
    (s.pollJob turns t op (.reporting run)).Calling t p := by
  have hwaits (h : (s.ending? run).bind Ending.runExit = none) : (s.pollJob turns t op (.reporting run)).Calling t p := by
    rw [System.pollJob, awaitRun, h]
    exact moved (.reporting run ht hr hj ho) rfl (.of_steady (.park s.world _ op))
  cases j with
  | ended e =>
    cases e with
    | exit x =>
      obtain rfl : x = .success p := hj
      rw [System.pollJob, awaitRun, ending?_eq_some.mpr hr]
      obtain ⟨task, htask, -⟩ := Option.map_eq_some_iff.mp ht
      refine .reported (job?_finish htask _) fun u hu => ?_
      by_cases hrun : u = run
      · subst hrun
        exact over_of_ended ((job?_finish_of_ne s hu _).trans hr)
      · exact (ho u hu hrun).of_job? (job?_finish_of_ne s hu _)
    | _ => exact hj.elim
  | launched q | running q =>
    refine hwaits ?_
    cases he : s.ending? run with
    | none => rfl
    | some e =>
      have hended := (ending?_eq_some.mp he).symm.trans hr
      cases hended
  | _ => exact hj.elim

/-- Whichever task is polled, the call goes on or has ended; a task that has ended does nothing any more. -/
theorem pollJob (h : s.Calling t p) (u : TaskId) {j : Job} (hu : s.job? u = some j) (turns : Nat) (op : OperationId) :
    (s.pollJob turns u op j).Calling t p := by
  have hover (ho : s.Over u) : (s.pollJob turns u op j).Calling t p := by
    cases j with
    | ended e => exact h
    | _ => nomatch ho _ hu
  by_cases heq : u = t
  · subst heq
    cases h with
    | called ht hn ho =>
      rw [ht] at hu
      obtain rfl := Option.some.inj hu
      exact call ht hn ho turns op
    | reporting run ht hr hj ho =>
      rw [ht] at hu
      obtain rfl := Option.some.inj hu
      exact report ht hr hj ho turns op
    | reported ht ho => exact hover (over_of_ended ht)
  · cases h with
    | called ht hn ho => exact hover (ho u heq)
    | @reporting run i ht hr hj ho =>
      by_cases hrun : u = run
      · subst hrun
        rw [hr] at hu
        obtain rfl := Option.some.inj hu
        match i, hj with
        | .launched q, hq =>
          have hc : s.world.Calm (s.onWorld (·.record .runStarted)).world := .of_steady (.record s.world _)
          exact pollRun (s := s.onWorld (·.record .runStarted)) ht hr heq (Process.Brings.calm hc hq) ho turns
        | .running q, hq => exact pollRun ht hr heq hq ho turns
        | .ended (.exit e), he => exact .reporting u ht hr he ho
      · exact hover (ho u heq hrun)
    | reported ht ho => exact hover (ho u heq)

/-- A task goes on calling its effect whoever is polled. -/
theorem poll (h : s.Calling t p) (u : TaskId) (turns : Nat) : (s.poll turns u).Calling t p := by
  cases hu : s.tasks[u]? with
  | none =>
    unfold System.poll pollTask
    rw [show (s.onWorld fun w => { w with ready := w.ready.erase u }).tasks[u]? = none from hu]
    exact h.moved rfl (.of_steady ⟨rfl, rfl⟩)
  | some task =>
    rw [poll_eq hu]
    have hserving : (s.onWorld (·.serving u)).Calling t p := h.moved rfl (.of_steady ⟨rfl, rfl⟩)
    exact (hserving.pollJob u (job?_eq (by exact hu)) turns task.op).moved (tasks_leave _ u) (leave_calm _ u)

/-- A task goes on calling its effect, or has it, however often the system is polled. -/
theorem settle (h : s.Calling t p) (turns n : Nat) : (s.settle turns n).Calling t p := by
  induction n generalizing s with
  | zero => exact h
  | succ n ih =>
    cases hr : s.world.ready with
    | nil =>
      unfold System.settle
      rw [hr]
      exact h
    | cons u rest =>
      rw [settle_ready hr]
      exact ih (h.poll u turns)

/-- A call that has ended has reported the payload of its effect, and no task is under way any more. -/
theorem await (h : s.Calling t p) {turns polls n : Nat} {e : Ending} (he : s.await turns polls t n = (some e, s')) :
    e = .reported (.ok p) ∧ s'.AtRest := by
  induction n generalizing s with
  | zero => nomatch he
  | succ n ih =>
    have hsettled := h.settle turns polls
    simp only [System.await] at he
    generalize s.settle turns polls = v at he hsettled
    split at he
    · rename_i x hx
      obtain ⟨hx', rfl⟩ := Prod.mk.inj he
      obtain rfl := Option.some.inj hx'
      have hended := ending?_eq_some.mp hx
      cases hsettled with
      | called ht _ _ | reporting _ ht _ _ _ =>
        rw [hended] at ht
        nomatch ht
      | reported ht ho =>
        rw [hended] at ht
        cases ht
        refine ⟨rfl, ?_⟩
        intro u
        by_cases hu : u = t
        · subst hu
          exact over_of_ended hended
        · exact ho u hu
    · split at he
      · rename_i d _
        have hadvanced : (v.onWorld (·.advanceTo d)).Calling t p := hsettled.moved rfl (.advanceTo v.world d)
        exact ih hadvanced he
      · nomatch he

end Calling

end System

end Interruptible
