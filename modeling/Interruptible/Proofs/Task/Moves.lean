import Mathlib.Data.Finset.Card
import Mathlib.Data.Finset.Range
import Interruptible.Proofs.Task.Cancellation
import Interruptible.Proofs.World.Lines

/-!
# Moves

The moves of a system whose trackers count what they are told to (`System.Move`): tasks are polled, the host acts and starts
tasks, registries are made and reset, and futures that are counted are held back until they are spawned or dropped. Every move
is a step, so what systems come to by moves they can become (`System.Attained.reachable`).

What the poll of a task does to the rest of the system is one of a few things, up to changes to the world that concern nobody
who waits in line (`System.Does`, `System.pollJob_does`).
-/

namespace Interruptible

/-- What the host does to the world. -/
inductive World.Hosted (w : World) : World → Prop where
  /-- Time passes. -/
  | advance (time : Nat) : Hosted w (w.advanceTo time)
  /-- Code of the host does something. -/
  | act {α : Type} (a : Action α) : Hosted w (a.run w).2
  /-- Something is kept under a name. -/
  | name (names : Names) : Hosted w { w with names }
  | newToken : Hosted w w.newToken.2
  | newOperation : Hosted w w.newOperation.2

/-- Whether a job is done. -/
def Job.hasEnded : Job → Bool
  | .ended _ => true
  | _ => false

/-- A job that the host can begin a task with. Calls and drains are made on registries that exist. -/
def Job.Begins (s : System) : Job → Prop
  | .call r _ _ _ => r.registry < s.registries.size
  | .drain r _ => r < s.registries.size
  | .notify _ _ | .future _ => True
  | _ => False

namespace System

/-- Whether a task is under way that a tracker was told to track. -/
def isCounted (s : System) (k : TrackerId) (t : TaskId) : Bool :=
  match s.tasks[t]? with
  | some task => task.tracker == some k && !task.job.hasEnded
  | none => false

/-- How many tasks are under way that a tracker was told to track. -/
def counted (s : System) (k : TrackerId) : Nat := ((Finset.range s.tasks.size).filter fun t => s.isCounted k t).card

/-- A move of a system. -/
inductive Move : System → System → Prop where
  /-- One of the ready tasks is polled, with so many turns that more would make no difference. -/
  | poll {s : System} {t : TaskId} {turns : Nat} (ht : t ∈ s.world.ready) (hn : ∀ k, s.poll (turns + k) t = s.poll turns t) :
    Move s (s.poll turns t)
  | host {s : System} {w : World} (h : s.world.Hosted w) : Move s { s with world := w }
  /-- A run is started. -/
  | launch {s : System} {r : Runtime} (hr : r.registry < s.registries.size) (n : Node) (env : Environment) (token : TokenId) :
    Move s (s.launch r n env token).2
  /-- Another task is started, which no tracker counts. -/
  | spawn {s : System} {j : Job} (hj : j.Begins s) : Move s (s.spawn j none).2
  /-- A future is counted, and held back. -/
  | hold {s : System} {r : RegistryId} (hr : r < s.registries.size) : Move s (s.track r).2
  /-- A task is started from a future that was held back. -/
  | spawnHeld {s : System} {j : Job} {k : TrackerId} (hj : j.Begins s) (hk : s.counted k < (s.tracker k).running) :
    Move s (s.spawn j (some k)).2
  /-- A future that was held back is dropped. -/
  | dropHeld {s : System} {k : TrackerId} (hk : s.counted k < (s.tracker k).running) : Move s (s.untrack k)
  | newRegistry {s : System} : Move s s.newRegistry.2
  | reset {s : System} (r : RegistryId) : Move s (s.reset r)

/-- What a system can come to by moves. -/
def Attained (s : System) : Prop := Relation.ReflTransGen Move {} s

end System

/-- A job that the host can begin a task with is one that has not been worked on. -/
theorem Job.Begins.fresh {s : System} {j : Job} (hj : j.Begins s) : j.Fresh := by
  cases j with
  | call _ _ _ _ | notify _ _ | future _ | drain _ _ => trivial
  | _ => exact hj.elim

namespace System

variable {s s' : System}

/-- What is said about steps of a system holds of moves. -/
theorem Move.step (h : Move s s') : Step s s' := by
  cases h with
  | poll ht hn => exact .poll ht hn
  | host h =>
    cases h with
    | advance time => exact .advance time
    | act a => exact .act a
    | name names => exact .name names
    | newToken => exact .newToken
    | newOperation => exact .newOperation
  | launch _ n env token => exact .launch _ n env token
  | spawn hj => exact .spawn hj.fresh none
  | hold _ => exact .track _
  | spawnHeld hj _ => exact .spawn hj.fresh _
  | dropHeld _ => exact .untrack _
  | newRegistry => exact .newRegistry
  | reset r => exact .reset r

/-- What is said about reachable systems holds of attained ones. -/
theorem Attained.reachable (hs : s.Attained) : s.Reachable := by
  induction hs with
  | refl => exact .refl
  | tail _ h ih => exact ih.tail h.step

/-- In an attained state, runs are ready or wait for what is registered. -/
theorem Attained.sound (hs : s.Attained) : s.Sound none none := hs.reachable.sound

end System

/-- What the host does to the world goes on aside from all who wait in line. -/
theorem World.Hosted.aside {w w' : World} (h : w.Hosted w') (X : OperationId → Prop) : w.Aside X w' := by
  have quiet {v : World} (hv : World.Faithful Stake.None w v) (hline : v.waiters = w.waiters) : w.Aside X v :=
    (World.Aside.of_faithful hv (.of_eq hline) fun _ => False.elim).mono fun _ => False.elim
  cases h with
  | advance time => exact .acts (.advanceTo w time) (.advanceTo w time)
  | act a => exact .acts (a.run_acts w) (a.run_sameLines w)
  | name names => exact quiet (.of_eq rfl rfl rfl fun _ h => h) rfl
  | newToken => exact quiet .newToken rfl
  | newOperation => exact quiet .newOperation rfl

/-! ## What a poll does -/

/-- The operations on whose behalf a task can wait: its own one, and those that its job awaits. -/
def Job.Owns (op : OperationId) (j : Job) (o : OperationId) : Prop := o = op ∨ .operation o ∈ j.stakes

/-- A job that can be left when a task has been polled and goes on. -/
def Job.Underway : Job → Prop
  | .running _ | .future _ => True
  | _ => False

/-- A job that a poll works on until it goes on or is done. -/
def Job.Works : Job → Prop
  | .launched _ | .running _ | .reporting _ | .notify _ _ | .future _ => True
  | _ => False

/-- The poll of a job that is not a run takes no turns. -/
theorem Job.Quiet.rests {j : Job} (hj : j.Quiet) {turns : Nat} {w : World} : j.Rests turns w := by
  cases j <;> first | exact hj.elim | trivial

/-- A job that a poll works on has not ended. -/
theorem Job.Works.unended {j : Job} (hj : j.Works) : j.hasEnded = false := by
  cases j with
  | ended e => exact hj.elim
  | _ => rfl

/-- A job that is left as it is when it has been polled and nothing has come of it. -/
def Job.Lasting : Job → Prop
  | .reporting _ | .notify _ _ | .ended _ => True
  | _ => False

/-- What the poll of a task does. -/
inductive System.Does (t : TaskId) (op : OperationId) (j : Job) (s : System) : System → Prop where
  | lasts {w : World} (hj : j.Lasting) (hw : s.world.Aside (j.Owns op) w) : Does t op j s { s with world := w }
  | goesOn {w : World} {j' : Job} (hj : j.Works) (hw : s.world.Aside (j.Owns op) w) (hj' : j'.Underway)
    (hx : ∀ o, .operation o ∈ j'.stakes →
      w.Issued (.operation o) ∧ (.operation o ∈ j.stakes ∨ ¬ s.world.Issued (.operation o))) :
    Does t op j s ({ s with world := w }.setJob t j')
  | ends {w : World} (hj : j.Works) (hw : s.world.Aside (j.Owns op) w) (e : Ending) :
    Does t op j s ({ s with world := w }.finish t e)
  /-- A call starts its run. -/
  | launches {w : World} {r : Runtime} {n : Node} {env : Environment} {token : Option TokenId} (hj : j = .call r n env token)
    (hw : s.world.Aside (j.Owns op) w) (token' : TokenId) :
    Does t op j s (((({ s with world := w } : System).launch r n env token').2.onWorld
      (·.park (.task s.tasks.size) op)).setJob t (.reporting s.tasks.size))
  /-- A drain closes the tracker of the day and begins to wait for it. -/
  | linesUp {w : World} {r : RegistryId} {a : Action Unit} (hj : j = .drain r a) (hw : s.world.Aside (fun _ => False) w)
    (hk : ((({ s with world := w } : System).close (s.currentTracker r)).tracker (s.currentTracker r)).isClosedAndEmpty = false) :
    Does t op j s ((({ s with world := w }.close (s.currentTracker r)).onWorld
      (·.park (.tracker (s.currentTracker r)) op)).setJob t (.draining (s.currentTracker r) a))
  /-- A drain closes the tracker of the day, which is empty, and opens it again. -/
  | passesAtOnce {w v : World} {r : RegistryId} {a : Action Unit} (hj : j = .drain r a) (hw : s.world.Aside (fun _ => False) w)
    (hk : ((({ s with world := w } : System).close (s.currentTracker r)).tracker (s.currentTracker r)).isClosedAndEmpty = true)
    (hv : (({ s with world := w } : System).close (s.currentTracker r)).world.Aside (j.Owns op) v) (e : Ending) :
    Does t op j s ({ ({ s with world := w }.close (s.currentTracker r)).reopen (s.currentTracker r) with world := v }.finish t e)
  /-- A drain stays in line. -/
  | stays {k : TrackerId} {a : Action Unit} (hj : j = .draining k a) (hline : s.world.line k op ≠ [])
    (hk : (s.tracker k).isClosedAndEmpty = false) : Does t op j s s
  /-- A drain need not wait any longer for its tracker, and opens it. -/
  | passes {w : World} {k : TrackerId} {a : Action Unit} (hj : j = .draining k a)
    (hk : s.world.line k op = [] ∨ (s.tracker k).isClosedAndEmpty = true) (hw : s.world.Aside (j.Owns op) w) (e : Ending) :
    Does t op j s ({ s.reopen k with world := w }.finish t e)

namespace System

variable {s : System} {t : TaskId} {op : OperationId} {j : Job} {turns : Nat}

/-- Closing a tracker leaves the tasks alone. -/
theorem tasks_close (s : System) (k : TrackerId) : (s.close k).tasks = s.tasks := by
  unfold close
  dsimp only
  split <;> rfl

/-- Closing a tracker leaves each task alone. -/
theorem getElem?_close (s : System) (k : TrackerId) (t : TaskId) : (s.close k).tasks[t]? = s.tasks[t]? :=
  congrArg (fun tasks => tasks[t]?) (s.tasks_close k)

/-- Closing a tracker wakes those who need not wait any longer. -/
theorem close_acts (s : System) (k : TrackerId) : s.world.Acts (s.close k).world := by
  unfold close
  dsimp only
  split
  · exact .emit _ _
  · exact .refl _

/-- An action that is the last thing that a task does. -/
theorem finishWith_eq (s : System) (t : TaskId) (a : Action Unit) :
    ∃ e, s.finishWith t a = { s with world := (a.run s.world).2 }.finish t e := by
  unfold finishWith inWorld
  dsimp only
  split <;> exact ⟨_, rfl⟩

/-- A task that ends with a last action does what a poll can do. -/
theorem finishWith_does (hj : j.Works) (a : Action Unit) : s.Does t op j (s.finishWith t a) := by
  obtain ⟨e, he⟩ := s.finishWith_eq t a
  rw [he]
  exact .ends hj (.acts (a.run_acts _) (a.run_sameLines _)) e

/-- A drain is done, in a world in which it has waited or need not wait. -/
theorem drained_eq {X : OperationId → Prop} (hop : X op) (hi : s.world.Issued (.operation op)) (t : TaskId) (k : TrackerId)
    (a : Action Unit) :
    ∃ v e, s.world.Aside X v ∧ s.drained t op k a = { s.reopen k with world := v }.finish t e := by
  obtain ⟨e, he⟩ := ((s.onWorld (·.forget op)).reopen k).finishWith_eq t a
  have hforget : s.world.Aside X (s.world.forget op) := .of_own (.forget _ _) (.forget _ rfl) hi hop
  have hact : (s.world.forget op).Aside X (a.run (s.world.forget op)).2 := .acts (a.run_acts _) (a.run_sameLines _)
  exact ⟨_, e, hforget.trans hact fun _ _ => id, he⟩

/-- A task that waits for a run to end. -/
theorem awaitRun_does (hi : s.world.Issued (.operation op)) (hj : j.Lasting) {run : TaskId} {s' : System}
    (h : s.awaitRun op run = .error s') : s.Does t op j s' := by
  unfold awaitRun at h
  split at h
  · nomatch h
  · obtain rfl := Except.error.inj h
    exact .lasts hj (.of_own (.park _ _ _) (.park _ _ rfl) hi (.inl rfl))

/-- The poll of a process that comes to its end. -/
theorem pollRun_does {p : Process} {token : TokenId} {w : World} (hw : s.world.Aside (j.Owns op) w) (hkeys : w.KeysSound)
    (hc : w.current = some t) (hr : p.Rests turns w) (hu : p.exit? = none) (hp : p.Holding w token)
    (ha : p.Active t w) (hj : j.Works) (hx : ∀ o, .operation o ∈ p.stakes → .operation o ∈ j.stakes) :
    s.Does t op j ({ s with world := w }.pollRun turns t p) := by
  have hpoll := p.poll_suspends hr hkeys hc hu hp ha
  have haside : s.world.Aside (j.Owns op) (p.poll turns w).2 :=
    hw.trans (p.poll_aside turns hkeys hp) fun o _ ho => .inr (hx o ho)
  have hstakes : ∀ o, .operation o ∈ (p.poll turns w).1.stakes →
      (p.poll turns w).2.Issued (.operation o) ∧ (.operation o ∈ j.stakes ∨ ¬ s.world.Issued (.operation o)) := fun o ho =>
    ⟨hpoll.holding.issued _ ho, (hpoll.stakes _ ho).imp (hx o) fun hn hi => hn (hw.issued o hi)⟩
  unfold pollRun inWorld
  dsimp only
  split
  · exact .ends hj (haside.trans (.acts (.record _ _) (.of_eq rfl)) fun _ _ => id) _
  · exact .goesOn hj haside trivial hstakes

/-- The poll of a job that is not a run. -/
theorem pollJob_quiet_does (hi : s.world.Issued (.operation op)) (hj : j.Quiet) (turns : Nat) :
    s.Does t op j (s.pollJob turns t op j) := by
  cases j with
  | launched p => exact hj.elim
  | running p => exact hj.elim
  | call r n env token =>
    cases token with
    | some token => exact .launches rfl (.refl _) token
    | none => exact .launches rfl (World.Hosted.newToken.aside _) _
  | reporting run =>
    have hworks : (Job.reporting run).Works := trivial
    simp only [pollJob]
    split
    · exact .ends hworks (.refl _) _
    · exact .ends hworks (.refl _) _
    · rename_i h
      exact awaitRun_does (j := .reporting run) hi trivial h
  | notify run onExit =>
    have hworks : (Job.notify run onExit).Works := trivial
    simp only [pollJob]
    split
    · exact finishWith_does hworks _
    · rename_i h
      exact awaitRun_does (j := .notify run onExit) hi trivial h
  | future f =>
    have hworks : (Job.future f).Works := trivial
    have hown : s.world.Aside ((Job.future f).Owns op) (f.poll op s.world).2 :=
      .of_own (f.poll_acts op _) (f.poll_sameLines (X := (· = op)) rfl _) hi (.inl rfl)
    simp only [pollJob, inWorld]
    split
    · exact .goesOn hworks hown trivial fun _ h => absurd h List.not_mem_nil
    · exact .ends hworks hown _
    · exact .ends hworks hown _
  | drain r a =>
    let noted : System := s.onWorld (·.record (.draining (s.tracker (s.currentTracker r)).running))
    have hnote : s.world.Aside (fun _ => False) noted.world := .acts (.record _ _) (.of_eq rfl)
    simp only [pollJob]
    split
    · rename_i hk
      have hclosed := (noted.close_acts (s.currentTracker r)).issued (hnote.issued op hi)
      obtain ⟨v, e, hv, heq⟩ := drained_eq (X := (Job.drain r a).Owns op) (.inl rfl) hclosed t (s.currentTracker r) a
      rw [heq]
      exact .passesAtOnce rfl hnote hk hv e
    · rename_i hk
      exact .linesUp rfl hnote (Bool.eq_false_iff.mpr hk)
  | draining k a =>
    simp only [pollJob]
    split
    · rename_i hk
      obtain ⟨v, e, hv, heq⟩ := s.drained_eq (X := (Job.draining k a).Owns op) (.inl rfl) hi t k a
      rw [heq]
      refine .passes rfl ?_ hv e
      simpa [World.isParked_eq] using hk
    · rename_i hk
      simp only [World.isParked_eq, Bool.not_not, Bool.or_eq_true, List.isEmpty_iff, not_or, Bool.not_eq_true] at hk
      exact .stays rfl hk.1 hk.2
  | ended e => exact .lasts trivial (.refl _)

/-- The poll of a job. -/
theorem pollJob_does (hs : s.Sound none none) (hj : s.job? t = some j) (hi : s.world.Issued (.operation op))
    (hr : j.Rests turns (s.world.serving t)) :
    (s.onWorld (·.serving t)).Does t op j ((s.onWorld (·.serving t)).pollJob turns t op j) := by
  have hsound := hs.jobs t j hj nofun
  have hkeys := (hs.entering t).keys
  have quiet : j.Quiet → (s.onWorld (·.serving t)).Does t op j ((s.onWorld (·.serving t)).pollJob turns t op j) := fun hq =>
    pollJob_quiet_does (s := s.onWorld (·.serving t)) hi hq turns
  cases j with
  | launched p =>
    obtain ⟨⟨n, env, token, k, rfl⟩, -⟩ := hsound
    exact pollRun_does (.acts (.record _ _) (.of_eq rfl)) ((World.Acts.record _ _).keysSound hkeys) rfl hr rfl
      (.start n env token k) (.free (.next n rfl)) trivial fun _ h => nomatch h
  | running p =>
    obtain ⟨⟨token, hp⟩, hidle⟩ := hsound
    exact pollRun_does (.refl _) hkeys rfl hr hidle.unsettled hp.scheduled hidle.active trivial fun _ => id
  | _ => exact quiet trivial

/-- A poll that comes to its end, between taking the task out of the queue and putting it back. -/
theorem poll_rests_does (hs : s.Sound none none) {task : Task} (ht : s.tasks[t]? = some task)
    (hi : s.world.Issued (.operation task.op)) (turns : Nat) (hr : task.job.Rests turns (s.world.serving t)) :
    ∃ s', (s.onWorld (·.serving t)).Does t task.op task.job s' ∧ s'.world.current = some t ∧ s.poll turns t = s'.leave t :=
  ⟨_, pollJob_does hs (s.job?_eq ht) hi hr, (hs.pollJob (s.job?_eq ht) hr).polled, poll_eq ht turns⟩

/-- The poll of a task, with so many turns that more would make no difference. -/
theorem poll_does (hs : s.Sound none none) {task : Task} (ht : s.tasks[t]? = some task) (hi : s.world.Issued (.operation task.op))
    (hn : ∀ k, s.poll (turns + k) t = s.poll turns t) :
    ∃ s', (s.onWorld (·.serving t)).Does t task.op task.job s' ∧ s'.world.current = some t ∧ s.poll turns t = s'.leave t := by
  obtain ⟨enough, hr⟩ := s.exists_rests t
  obtain ⟨s', hdoes, hcurrent, hpoll⟩ := poll_rests_does hs ht hi enough (hr _ (s.job?_eq ht))
  refine ⟨s', hdoes, hcurrent, ?_⟩
  rw [← hn enough, Nat.add_comm, poll_add hr, hpoll]

/-- Nothing but the queue changes when a task is polled that does not exist. -/
theorem poll_none (ht : s.tasks[t]? = none) (turns : Nat) :
    s.poll turns t = s.onWorld (·.scheduled (s.world.ready.erase t) s.world.current s.world.wokenMeanwhile) := by
  unfold poll pollTask
  rw [show (s.onWorld fun w => { w with ready := w.ready.erase t }).tasks[t]? = none from ht]
  rfl

variable {s' : System} {c : Option TrackerId} {task : Task} {k : TrackerId} {r : RegistryId} {a : Action Unit}

/-- A drain that is polled for the first time begins to wait, or returns because the tracker is empty. -/
theorem Does.of_drain (h : s.Does t op (.drain r a) s') :
    ∃ w, s.world.Aside (fun _ => False) w ∧
      (((({ s with world := w } : System).close (s.currentTracker r)).tracker (s.currentTracker r)).isClosedAndEmpty = false ∧
          s' = (({ s with world := w }.close (s.currentTracker r)).onWorld
            (·.park (.tracker (s.currentTracker r)) op)).setJob t (.draining (s.currentTracker r) a) ∨
        ((({ s with world := w } : System).close (s.currentTracker r)).tracker (s.currentTracker r)).isClosedAndEmpty = true ∧
          ∃ v e, (({ s with world := w } : System).close (s.currentTracker r)).world.Aside ((Job.drain r a).Owns op) v ∧
            s' = { ({ s with world := w }.close (s.currentTracker r)).reopen (s.currentTracker r) with world := v }.finish t e) := by
  cases h with
  | lasts hj => exact hj.elim
  | goesOn hj => exact hj.elim
  | ends hj => exact hj.elim
  | launches hj => nomatch hj
  | linesUp hj hw hk =>
    obtain ⟨rfl, rfl⟩ := Job.drain.inj hj
    exact ⟨_, hw, .inl ⟨hk, rfl⟩⟩
  | passesAtOnce hj hw hk hv e =>
    obtain ⟨rfl, rfl⟩ := Job.drain.inj hj
    exact ⟨_, hw, .inr ⟨hk, _, e, hv, rfl⟩⟩
  | stays hj => nomatch hj
  | passes hj => nomatch hj

/-- A drain that is polled again stays in line, or returns. -/
theorem Does.of_draining (h : s.Does t op (.draining k a) s') :
    (s.world.line k op ≠ [] ∧ (s.tracker k).isClosedAndEmpty = false) ∧ s' = s ∨
      (s.world.line k op = [] ∨ (s.tracker k).isClosedAndEmpty = true) ∧
        ∃ w e, s.world.Aside ((Job.draining k a).Owns op) w ∧ s' = { s.reopen k with world := w }.finish t e := by
  cases h with
  | lasts hj => exact hj.elim
  | goesOn hj => exact hj.elim
  | ends hj => exact hj.elim
  | launches hj => nomatch hj
  | linesUp hj => nomatch hj
  | passesAtOnce hj => nomatch hj
  | stays hj hline hk =>
    obtain ⟨rfl, rfl⟩ := Job.draining.inj hj
    exact .inl ⟨⟨hline, hk⟩, rfl⟩
  | passes hj hk hw e =>
    obtain ⟨rfl, rfl⟩ := Job.draining.inj hj
    exact .inr ⟨hk, _, e, hw, rfl⟩

/-! ## What becomes of the tasks -/

/-- A task that is counted no longer is still there. -/
theorem tasks_untrack (s : System) (k : TrackerId) : (s.untrack k).tasks = s.tasks := by
  unfold untrack
  dsimp only
  split <;> rfl

/-- Only the task in question is given another job. -/
theorem getElem?_setJob (s : System) (t u : TaskId) (j : Job) :
    (s.setJob t j).tasks[u]? = if t = u then s.tasks[u]?.map fun x => { x with job := j } else s.tasks[u]? :=
  Array.getElem?_modify

/-- Only the task in question ends. -/
theorem getElem?_finish (s : System) (t u : TaskId) (x : Ending) :
    (s.finish t x).tasks[u]? = if t = u then s.tasks[u]?.map fun task => { task with job := .ended x } else s.tasks[u]? := by
  unfold finish
  split
  · rename_i h
    split
    · rename_i heq
      rw [← heq, h, Option.map_none]
    · rfl
  · rename_i task _
    have hended {v : System} (hv : v.tasks = s.tasks) : (v.setJob t (.ended x)).tasks[u]? =
        if t = u then s.tasks[u]?.map fun task => { task with job := .ended x } else s.tasks[u]? := by
      rw [getElem?_setJob, hv]
    dsimp only
    split
    · exact hended (tasks_untrack _ _)
    · exact hended rfl

/-- A task has ended as its job says. -/
theorem ending?_eq_some {x : Ending} : s.ending? t = some x ↔ s.job? t = some (.ended x) := by
  unfold ending? job?
  cases s.tasks[t]? with
  | none => exact ⟨nofun, nofun⟩
  | some task =>
    obtain ⟨job, op, tracker⟩ := task
    cases job <;> simp

/-- A task that has ended has its ending for a job. -/
theorem job?_finish (h : s.tasks[t]? = some task) (x : Ending) : (s.finish t x).job? t = some (.ended x) := by
  rw [job?, getElem?_finish, if_pos rfl, h]
  rfl

/-- Other tasks have the job that they had. -/
theorem job?_finish_of_ne (s : System) (hu : u ≠ t) (x : Ending) : (s.finish t x).job? u = s.job? u := by
  rw [job?, getElem?_finish, if_neg hu.symm, job?]

/-- A task stays as it is when another one is added. -/
theorem getElem?_spawn_of_some (h : s.tasks[t]? = some task) (j : Job) (c : Option TrackerId) :
    (s.spawn j c).2.tasks[t]? = some task := by
  rw [getElem?_spawn, if_neg (Nat.ne_of_lt (Array.getElem?_eq_some_iff.mp h).1), h]

/-- A task stays as it is when a run is launched. -/
theorem getElem?_launch_of_some (h : s.tasks[t]? = some task) (r : Runtime) (n : Node) (env : Environment) (token : TokenId) :
    (s.launch r n env token).2.tasks[t]? = some task :=
  getElem?_spawn_of_some (s := (s.track r.registry).2) h _ _

/-- The poll of a task changes none of the others, and adds none but a run. -/
theorem Does.tasks (h : s.Does t op j s') {u : TaskId} (hu : u ≠ t) :
    s'.tasks[u]? = s.tasks[u]? ∨ s.tasks[u]? = none ∧ ∃ p, s'.job? u = some (.launched p) := by
  have finished {v : System} (hv : v.tasks[u]? = s.tasks[u]?) (x : Ending) : (v.finish t x).tasks[u]? = s.tasks[u]? := by
    rw [getElem?_finish, if_neg hu.symm, hv]
  have given (v : System) (i : Job) : (v.setJob t i).tasks[u]? = v.tasks[u]? := by
    rw [getElem?_setJob, if_neg hu.symm]
  cases h with
  | lasts => exact .inl rfl
  | @goesOn w => exact .inl (given { s with world := w } _)
  | ends _ _ x =>
    refine .inl (finished ?_ x)
    rfl
  | @launches w r n env _ _ _ token =>
    have hgiven := given ((System.launch { s with world := w } r n env token).2.onWorld (·.park (.task s.tasks.size) op))
      (.reporting s.tasks.size)
    have hadded := getElem?_spawn (System.track { s with world := w } r.registry).2 (.launched (.start n env token r.interval))
      (some (System.track { s with world := w } r.registry).1) u
    by_cases hnew : u = s.tasks.size
    · refine .inr ⟨hnew ▸ Array.getElem?_eq_none (Nat.le_refl _), .start n env token r.interval, ?_⟩
      exact congrArg (Option.map Task.job) ((hgiven.trans hadded).trans (if_pos hnew))
    · exact .inl ((hgiven.trans hadded).trans (if_neg hnew))
  | @linesUp w _ a => exact .inl ((given _ _).trans (getElem?_close { s with world := w } _ u))
  | @passesAtOnce w _ r _ _ _ _ _ x =>
    refine .inl (finished ?_ x)
    exact getElem?_close { s with world := w } (s.currentTracker r) u
  | stays => exact .inl rfl
  | passes _ _ _ x =>
    refine .inl (finished ?_ x)
    rfl

/-- A poll of one task leaves the other tasks as they are. -/
theorem Does.others (h : s.Does t op j s') {u : TaskId} (hu : u ≠ t) (ht : s.tasks[u]? = some task) : s'.tasks[u]? = some task := by
  rcases h.tasks hu with hsame | ⟨hnew, -⟩
  · exact hsame.trans ht
  · exact nomatch hnew.symm.trans ht

/-- A task that is polled keeps its operation and its tracker, and if it has ended its job. -/
theorem Does.self (h : s.Does t op j s') (ht : s.tasks[t]? = some { job := j, op := op, tracker := c }) :
    ∃ j', s'.tasks[t]? = some { job := j', op := op, tracker := c } ∧ (j.hasEnded = true → j' = j) := by
  have finished {v : System} (hv : v.tasks[t]? = some { job := j, op := op, tracker := c }) (hj : j.hasEnded = false) (x : Ending) :
      ∃ j', (v.finish t x).tasks[t]? = some { job := j', op := op, tracker := c } ∧ (j.hasEnded = true → j' = j) :=
    ⟨.ended x, by rw [getElem?_finish, if_pos rfl, hv]; rfl, fun h => by rw [hj] at h; nomatch h⟩
  have given {v : System} (hv : v.tasks[t]? = some { job := j, op := op, tracker := c }) (hj : j.hasEnded = false) (i : Job) :
      ∃ j', (v.setJob t i).tasks[t]? = some { job := j', op := op, tracker := c } ∧ (j.hasEnded = true → j' = j) :=
    ⟨i, by rw [getElem?_setJob, if_pos rfl, hv]; rfl, fun h => by rw [hj] at h; nomatch h⟩
  have closed {w : World} (k : TrackerId) :
      ({ s with world := w }.close k).tasks[t]? = some { job := j, op := op, tracker := c } :=
    (getElem?_close { s with world := w } k t).trans ht
  cases h with
  | lasts => exact ⟨j, ht, fun _ => rfl⟩
  | goesOn hj => exact given ht hj.unended _
  | ends hj =>
    refine finished ?_ hj.unended _
    exact ht
  | @launches w r n env _ hj _ token =>
    exact given (getElem?_launch_of_some (s := { s with world := w }) ht r n env token) (by rw [hj]; rfl) _
  | linesUp hj => exact given (closed _) (by rw [hj]; rfl) _
  | passesAtOnce hj =>
    refine finished ?_ (by rw [hj]; rfl) _
    exact closed _
  | stays => exact ⟨j, ht, fun _ => rfl⟩
  | passes hj =>
    refine finished ?_ (by rw [hj]; rfl) _
    exact ht

end System

end Interruptible
