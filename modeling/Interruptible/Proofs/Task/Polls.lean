import Interruptible.Proofs.Machine.Polls
import Interruptible.Task.Schedule

/-!
# Polls of tasks

The scheduler takes a ready task out of the queue, lets its job do its next part, and puts the task back if it was woken
meanwhile (`System.poll_eq`). Every such poll comes to its end (`System.exists_rests`), and once it is given enough turns it makes
no difference how many (`System.poll_add`).
-/

namespace Interruptible

/-- The job of a task. -/
def System.job? (s : System) (t : TaskId) : Option Job := s.tasks[t]?.map (·.job)

theorem System.job?_eq {s : System} {t : TaskId} {task : Task} (ht : s.tasks[t]? = some task) : s.job? t = some task.job := by
  rw [job?, ht, Option.map_some]

theorem System.job?_of_tasks {s s' : System} (h : s'.tasks = s.tasks) (t : TaskId) : s'.job? t = s.job? t := by
  rw [job?, h, job?]

/-- The same world with another queue, and with another task being polled. -/
def World.scheduled (w : World) (ready : List TaskId) (current : Option TaskId) (woken : Bool) : World :=
  { w with ready, current, wokenMeanwhile := woken }

/-- The world in which a ready task is polled. -/
def World.serving (w : World) (t : TaskId) : World := w.scheduled (w.ready.erase t) (some t) false

/-- The poll of a job comes to its end within so many turns. -/
def Job.Rests (turns : Nat) (w : World) : Job → Prop
  | .launched p => p.Rests turns (w.record .runStarted)
  | .running p => p.Rests turns w
  | _ => True

instance Job.Rests.decidable (turns : Nat) (w : World) : (j : Job) → Decidable (j.Rests turns w)
  | .launched p => inferInstanceAs (Decidable (p.Rests turns (w.record .runStarted)))
  | .running p => inferInstanceAs (Decidable (p.Rests turns w))
  | .call _ _ _ _ | .reporting _ | .notify _ _ | .future _ | .drain _ _ | .draining _ _ | .ended _ => isTrue trivial

theorem Job.exists_rests (w : World) : (j : Job) → ∃ turns, j.Rests turns w
  | .launched p => p.exists_rests (w.record .runStarted)
  | .running p => p.exists_rests w
  | .call _ _ _ _ | .reporting _ | .notify _ _ | .future _ | .drain _ _ | .draining _ _ | .ended _ => ⟨0, trivial⟩

/-- A poll that has come to its end does not go on if it may take more turns. -/
theorem Job.Rests.pollJob_add {turns : Nat} {s : System} {j : Job} (h : j.Rests turns s.world) (t : TaskId) (op : OperationId)
    (k : Nat) : s.pollJob (turns + k) t op j = s.pollJob turns t op j := by
  have run : ∀ {s : System} {p : Process}, p.Rests turns s.world → s.pollRun (turns + k) t p = s.pollRun turns t p := by
    intro s p hp
    simp only [System.pollRun, System.inWorld, Process.poll_of_rests hp k]
  cases j with
  | launched p => exact run h
  | running p => exact run h
  | _ => rfl

/-- Takes a ready task out of the queue and polls it. -/
def System.poll (turns : Nat) (s : System) (t : TaskId) : System :=
  (s.onWorld fun w => { w with ready := w.ready.erase t }).pollTask turns t

/-- Ends the poll of a task: it is ready again if it was woken meanwhile. -/
def System.leave (s : System) (t : TaskId) : System :=
  if s.world.wokenMeanwhile && (s.ending? t).isNone then
    (s.onWorld fun w => { w with current := none, wokenMeanwhile := false }).onWorld (·.wake t)
  else s.onWorld fun w => { w with current := none, wokenMeanwhile := false }

/-- The poll of a task is that of its job. -/
theorem System.poll_eq {s : System} {t : TaskId} {task : Task} (ht : s.tasks[t]? = some task) (turns : Nat) :
    s.poll turns t = ((s.onWorld (·.serving t)).pollJob turns t task.op task.job).leave t := by
  unfold poll pollTask
  rw [show (s.onWorld fun w => { w with ready := w.ready.erase t }).tasks[t]? = some task from ht]
  rfl

/-- Every poll comes to its end. -/
theorem System.exists_rests (s : System) (t : TaskId) : ∃ turns, ∀ j, s.job? t = some j → j.Rests turns (s.world.serving t) := by
  cases hj : s.job? t with
  | none => exact ⟨0, nofun⟩
  | some j =>
    obtain ⟨turns, hr⟩ := j.exists_rests (s.world.serving t)
    refine ⟨turns, fun i hi => ?_⟩
    rwa [← Option.some.inj hi]

/-- With enough turns it makes no difference how many a poll may take. -/
theorem System.poll_add {s : System} {t : TaskId} {turns : Nat}
    (h : ∀ j, s.job? t = some j → j.Rests turns (s.world.serving t)) (k : Nat) : s.poll (turns + k) t = s.poll turns t := by
  cases ht : s.tasks[t]? with
  | none =>
    unfold poll pollTask
    rw [show (s.onWorld fun w => { w with ready := w.ready.erase t }).tasks[t]? = none from ht]
  | some task =>
    have hr : task.job.Rests turns (s.onWorld (·.serving t)).world := h _ (s.job?_eq ht)
    rw [poll_eq ht, poll_eq ht, hr.pollJob_add]

theorem System.exists_turns (s : System) (t : TaskId) : ∃ turns, ∀ k, s.poll (turns + k) t = s.poll turns t := by
  obtain ⟨turns, hr⟩ := s.exists_rests t
  exact ⟨turns, poll_add hr⟩

/-- Settling polls the first of the ready tasks and goes on with the others. -/
theorem System.settle_ready {s : System} {t : TaskId} {rest : List TaskId} (h : s.world.ready = t :: rest) (turns n : Nat) :
    s.settle turns (n + 1) = (s.poll turns t).settle turns n := by
  simp only [settle, poll, onWorld, h, List.erase_cons_head]

end Interruptible
