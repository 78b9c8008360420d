import Interruptible.Proofs.Machine.Panics
import Interruptible.Proofs.Task.Places

/-!
# Panics stay where they are

A panic never leaves the callback in which it occurs. In a callback of a node it is the failure with the defect in its place: a
tree whose callbacks panic runs like the tree whose callbacks return that failure instead, with the same exit, and the same
callbacks, recoveries and finalizers are called afterwards. In the factory of a host future or in a poll it is a rejection that
is mapped to the defect. In a listener or a hook it is of no consequence at all: the other listeners run as if nothing had
happened. So a run ends with an exit or goes on, and its task never ends with a panic (`panics_are_defects`).
-/

namespace Interruptible

/-- The job of a run: it has not begun, is under way, or has ended with an exit. -/
def Job.IsRun : Job → Prop
  | .launched _ | .running _ | .ended (.exit _) => True
  | _ => False

namespace System

variable {s s' : System} {t : TaskId} {task : Task}

theorem tasks_leave (s : System) (t : TaskId) : (s.leave t).tasks = s.tasks := by
  unfold leave
  split <;> rfl

/-- The poll of a run that is under way. -/
theorem pollRun_isRun (ht : s.tasks[t]? = some task) (turns : Nat) (p : Process) :
    ∃ j, (s.pollRun turns t p).job? t = some j ∧ j.IsRun := by
  unfold pollRun inWorld
  dsimp only
  split
  · rename_i e _
    exact ⟨.ended (.exit e), job?_finish (by exact ht) _, trivial⟩
  · refine ⟨.running (p.poll turns s.world).1, ?_, trivial⟩
    rw [job?, getElem?_setJob, if_pos rfl]
    change (s.tasks[t]?.map _).map _ = _
    rw [ht]
    rfl

/-- The task of a run stays one, whatever the system does. -/
theorem Move.isRun (h : Move s s') (hs : s.Attained) (ht : s.tasks[t]? = some task) (hj : task.job.IsRun) :
    ∃ j, s'.job? t = some j ∧ j.IsRun := by
  rcases h.elsewhere hs ht with ⟨turns, -, -, rfl⟩ | ⟨htask, -⟩
  · rw [poll_eq ht, job?, tasks_leave]
    have ht' : (s.onWorld (·.serving t)).tasks[t]? = some task := ht
    cases hjob : task.job with
    | launched p => exact pollRun_isRun (s := (s.onWorld (·.serving t)).onWorld (·.record .runStarted)) ht turns p
    | running p => exact pollRun_isRun ht' turns p
    | ended e =>
      rw [hjob] at hj
      exact ⟨.ended e, (s.job?_eq ht).trans (congrArg some hjob), hj⟩
    | _ =>
      rw [hjob] at hj
      exact hj.elim
  · exact ⟨task.job, s'.job?_eq htask, hj⟩

end System

/-- A tree, and what becomes of it when some of its callbacks, or all of them, return the failure with the defect instead of
panicking: both become the same when they are mended, and where a callback panics with a message, what is put in place of the
panic is the failure with the defect of the text "panicked: " and that message. Their runs take the same turns, in worlds that
differ in nothing but what panics in listeners leave, and call the same callbacks with the same arguments; finalizers and
recoveries are among these, and so are those of all finalizers and branches inside. A future that panics is treated like one
that rejects where the rejection is mapped to the defect. Listeners that panic make no difference to the trip of a token, and no
run ends with a panic. -/
theorem panics_are_defects {R R' : World → World → Prop}
    (hR : ∀ a b a', R a b → a'.mended = a.mended → ∃ b', R' a' b' ∧ b'.mended = b.mended) {n n' : Node}
    (hn : n'.mended = n.mended) {env : Environment} {t : TokenId} {k : Nat} {w w' v : World} (hw : w'.mended = w.mended)
    {h : History} {q : Process} (run : Process.Run R (.start n env t k) w h q v) :
    (∃ h' q' v', Process.Run R' (.start n' env t k) w' h' q' v' ∧ q'.exit? = q.exit? ∧
        h'.calls.map Call.mended = h.calls.map Call.mended ∧
          h'.turns.frameEvents.map FrameEvent.mended = h.turns.frameEvents.map FrameEvent.mended ∧
            h'.map (·.2.log) = h.map (·.2.log) ∧ v'.log = v.log) ∧
      (∀ m : Interpreter, m.RejectsPanics) ∧
      (∀ (s : TokenId) (u : World), (u.interrupt s).mended = u.mended.interrupt s) ∧
      (∀ (s s' : System) (i : TaskId) (j : Job), s.Attained → Relation.ReflTransGen System.Move s s' → s.job? i = some j →
        j.IsRun → ∃ j', s'.job? i = some j' ∧ j'.IsRun) ∧
      ∀ message : String,
        Action.mended (.panicWith message) = .pure (.die (.msg ("panicked: " ++ message))) ∧
          Action.mendedThunk (.panicWith message) = .pure (.error (.die (.msg ("panicked: " ++ message)))) ∧
            Action.mendedReject (.panicWith message) = .pure (.die (.msg ("panicked: " ++ message))) := by
  refine ⟨?_, fun m => m.rejectsPanics, fun s u => (World.interrupt_mended s u).symm, ?_, fun message => ?_⟩
  · have hp : (Process.start n' env t k).mended = (Process.start n env t k).mended := by
      simp only [Process.start, Process.mended, hn]
    obtain ⟨h', q', v', run', hh, hq, hv⟩ := run.mended hR hp hw
    refine ⟨h', q', v', run', ?_, ?_, ?_, ?_, ?_⟩
    · rw [← Process.exit?_mended, hq, Process.exit?_mended]
    · rw [← h'.calls_mended, hh, h.calls_mended]
    · rw [← History.frameEvents_mended, ← h'.turns_mended, hh, h.turns_mended, History.frameEvents_mended]
    · have := congrArg (List.map fun y => y.2.log) hh
      simpa [History.mended, World.mended, Function.comp_def] using this
    · change v'.mended.log = v.mended.log
      rw [hv]
  · intro s s' i j hs hmoves hj hrun
    induction hmoves with
    | refl => exact ⟨j, hj, hrun⟩
    | @tail u u' hmoves hm ih =>
      obtain ⟨j', hj', hrun'⟩ := ih
      obtain ⟨task, htask, rfl⟩ := Option.map_eq_some_iff.mp hj'
      exact hm.isRun (hs.trans hmoves) htask hrun'
  · simp only [Action.panicWith, Action.mended, Action.mendedThunk, Action.mendedReject, Action.repaired]
    exact ⟨rfl, rfl, rfl⟩

/-- A branch whose continuation panics, after it has registered a listener that would panic, and a finalizer that panics. -/
def panicking : Node :=
  .ensuring
    (.all [.chain (.succeed .unit) fun _ => .subscribe 0 (.panic .nonText) fun _ => .panicWith "branch"])
    (.defer (.panicWith "cleanup"))

/-- The same branch and the same finalizer, which fail with the defects instead. -/
def defective : Node :=
  .ensuring
    (.all [.chain (.succeed .unit) fun _ => .subscribe 0 .done fun _ => return .die (Panic.text "branch").defect])
    (.defer do return .die (Panic.text "cleanup").defect)

theorem panics_are_defects_panicking :
    ∃ (h : History) (q : Process) (v : World),
      Process.Run Eq (.start defective (.plain .null) 0 9) (World.newToken default).2 h q v ∧
        q.exit? = some (.failure (.then (.die (.msg "panicked: branch")) (.die (.msg "panicked: cleanup")))) := by
  have run : Process.Run Eq (.start panicking (.plain .null) 0 9) (World.newToken default).2
      (Process.alone 60 (.start panicking (.plain .null) 0 9) (World.newToken default).2).1
      (.settled (.failure (.then (.die (Panic.text "branch").defect) (.die (Panic.text "cleanup").defect)))) _ :=
    Process.alone_run 60 _ _
  have hR : ∀ a b a' : World, a = b → a'.mended = a.mended → ∃ b', a' = b' ∧ b'.mended = b.mended := by
    rintro a _ a' rfl h
    exact ⟨a', rfl, h⟩
  have hn : defective.mended = panicking.mended := by
    simp [defective, panicking, Node.mended, Node.allMended, Action.mended, Action.panicWith, Listener.mended, Node.die, pure]
  obtain ⟨⟨h', q', v', run', hq, -⟩, -⟩ := panics_are_defects hR hn rfl run
  exact ⟨h', q', v', run', hq⟩

end Interruptible
