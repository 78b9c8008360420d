import Interruptible.Proofs.Machine.Suspension
import Interruptible.Proofs.Task.Polls

/-!
# Systems between polls

What holds of the tasks of a system whenever none of them is being polled (`System.Sound`): a run that has not been polled yet
is ready, the process of any other run waits, everything that it has at stake is registered or has been answered, and no two
tasks have anything at stake in common. Whatever is done to a system keeps this, in particular the poll of a task
(`System.Sound.poll`).
-/

namespace Interruptible

/-- What a task has at stake. -/
def Job.stakes : Job → List Stake
  | .running p => p.stakes
  | _ => []

/-- A run that has not been polled is ready, and one that has been polled waits. -/
def Job.Sound (t : TaskId) (w : World) : Job → Prop
  | .launched p => (∃ n env s k, p = .start n env s k) ∧ w.Awake t
  | .running p => (∃ s, p.Holding w s) ∧ p.Idle t w
  | _ => True

/-- A job that a task can begin with. -/
def Job.Fresh : Job → Prop
  | .launched p => ∃ n env s k, p = .start n env s k
  | .running _ => False
  | _ => True

/-- A job that is not a run. -/
def Job.Quiet : Job → Prop
  | .launched _ | .running _ => False
  | _ => True

namespace System

/-- What holds of a system in which this task is being polled, if any, with an exception for one task. -/
structure Sound (current except : Option TaskId) (s : System) : Prop where
  keys : s.world.KeysSound
  polled : s.world.current = current
  jobs : ∀ t j, s.job? t = some j → except ≠ some t → j.Sound t s.world
  apart : ∀ t t' j j', s.job? t = some j → s.job? t' = some j' → except ≠ some t → except ≠ some t' → t ≠ t' →
    ∀ x ∈ j.stakes, x ∉ j'.stakes

end System

/-! ## The queue -/

/-- A task is woken while none is being polled. -/
theorem World.wake_scheduled (w : World) (t : TaskId) :
    ∃ ready, w.scheduled ready none false = (w.scheduled w.ready none false).wake t ∧ t ∈ ready ∧ w.ready ⊆ ready := by
  by_cases h : w.ready.contains t = true
  · refine ⟨w.ready, ?_, List.contains_iff_mem.mp h, fun _ => id⟩
    simp [wake, scheduled, List.contains_iff_mem.mp h]
  · refine ⟨w.ready ++ [t], ?_, List.mem_append_right _ List.mem_cons_self, List.subset_append_left _ _⟩
    simpa [wake, scheduled] using h

section

variable {w : World} {ready : List TaskId} {c : Option TaskId} {woken : Bool}

/-- The stakes of a process are held whatever the queue of tasks is like. -/
theorem Process.Held.scheduled {s : TokenId} {p : Process} (hp : p.Held w s) : p.Held (w.scheduled ready c woken) s := by
  induction hp with
  | free hf => exact .free hf
  | awaiting ht ha => exact .awaiting ht ⟨ha.token, ⟨ha.holds.issued, ha.holds.allotted, ha.holds.sole⟩, ha.stopped⟩
  | joining ht hg _ ih =>
    refine .joining ht ⟨hg.issued, fun s hs => ?_, hg.tripped⟩ ih
    obtain ⟨htoken, hholds⟩ := hg.link s hs
    exact ⟨htoken, hholds.issued, hholds.allotted, hholds.sole⟩
  | finalizing o ht _ ih => exact .finalizing o ht ih

/-- A process stays idle when tasks are queued, as long as its own task is not forgotten. -/
theorem Process.Idle.scheduled {t : TaskId} {p : Process} (hp : p.Idle t w)
    (h : w.Awake t → (w.scheduled ready c woken).Awake t) : p.Idle t (w.scheduled ready c woken) := by
  induction hp with
  | counted m n ha => exact .counted m n (h ha)
  | awaiting m hi ht hl => exact .awaiting m hi ht (hl.imp_right h)
  | joining m g hr _ ih => exact .joining m g hr ih
  | finalizing m o _ ih => exact .finalizing m o ih

/-- A process holds its stakes whatever the queue of tasks is like. -/
theorem Process.Holding.scheduled {s : TokenId} {p : Process} (hp : p.Holding w s) :
    p.Holding (w.scheduled ready c woken) s :=
  ⟨hp.held.scheduled, fun x hx => by cases x <;> exact hp.issued _ hx, hp.nodup⟩

/-- A job stays sound when tasks are queued, as long as its own task is not forgotten. -/
theorem Job.Sound.scheduled {t : TaskId} {j : Job} (hj : j.Sound t w) (h : w.Awake t → (w.scheduled ready c woken).Awake t) :
    j.Sound t (w.scheduled ready c woken) := by
  cases j with
  | launched p => exact ⟨hj.1, h hj.2⟩
  | running p =>
    obtain ⟨⟨s, hp⟩, hidle⟩ := hj
    exact ⟨⟨s, hp.scheduled⟩, hidle.scheduled h⟩
  | _ => trivial

end

/-! ## Jobs -/

namespace Job

variable {t : TaskId} {w w' : World} {j : Job}

/-- A job stays sound as long as its stakes are respected. -/
theorem Sound.onward {X : Stake → Prop} (hj : j.Sound t w) (h : World.Faithful X w w') (hx : ∀ x ∈ j.stakes, ¬ X x) :
    j.Sound t w' := by
  cases j with
  | launched p => exact ⟨hj.1, h.awake t hj.2⟩
  | running p =>
    obtain ⟨⟨s, hp⟩, hidle⟩ := hj
    exact ⟨⟨s, hp.held.onward h hx, fun x hx => h.issued (hp.issued x hx), hp.nodup⟩, hidle.onward h hx⟩
  | _ => trivial

/-- The stakes of a sound job exist. -/
theorem Sound.issued (hj : j.Sound t w) : ∀ x ∈ j.stakes, w.Issued x := by
  cases j with
  | running p =>
    obtain ⟨⟨s, hp⟩, -⟩ := hj
    exact hp.issued
  | _ => exact fun _ hx => nomatch hx

/-- A job that is not a run waits for nothing that could be missed. -/
theorem Quiet.sound (hj : j.Quiet) : j.Sound t w := by
  cases j <;> first | exact hj.elim | trivial

/-- A job that is not a run has nothing at stake. -/
theorem Quiet.stakes (hj : j.Quiet) : j.stakes = [] := by
  cases j <;> first | exact hj.elim | rfl

/-- A run that has not been polled is sound when its task is awake. -/
theorem Fresh.sound (hj : j.Fresh) (h : w.Awake t) : j.Sound t w := by
  cases j with
  | launched p => exact ⟨hj, h⟩
  | running p => exact hj.elim
  | _ => trivial

/-- A job that has just begun has nothing at stake. -/
theorem Fresh.stakes (hj : j.Fresh) : j.stakes = [] := by
  cases j <;> first | exact hj.elim | rfl

end Job

namespace System

variable {c e : Option TaskId} {s : System} {t : TaskId} {j : Job}

/-- Only the job of the task in question is replaced. -/
theorem job?_setJob (s : System) (t t' : TaskId) (j : Job) :
    (s.setJob t j).job? t' = if t = t' then (s.job? t').map fun _ => j else s.job? t' := by
  simp only [job?, setJob, Array.getElem?_modify]
  split
  · cases s.tasks[t']? <;> rfl
  · rfl

/-- A task that is added is the last one. -/
theorem getElem?_spawn (s : System) (j : Job) (c : Option TrackerId) (t : TaskId) :
    (s.spawn j c).2.tasks[t]? =
      if t = s.tasks.size then some { job := j, op := s.world.operations.size, tracker := c } else s.tasks[t]? :=
  Array.getElem?_push

/-- The job of a task that is added is the last one. -/
theorem job?_spawn (s : System) (j : Job) (c : Option TrackerId) (t : TaskId) :
    (s.spawn j c).2.job? t = if t = s.tasks.size then some j else s.job? t := by
  rw [job?, getElem?_spawn]
  split <;> rfl

/-- When a task has been added, a task is the new one or has been there before. -/
theorem spawn_cases {k : Option TrackerId} {task : Task} (h : (s.spawn j k).2.tasks[t]? = some task) :
    t = s.tasks.size ∧ task = { job := j, op := s.world.operations.size, tracker := k } ∨ s.tasks[t]? = some task := by
  rw [getElem?_spawn] at h
  split at h
  · rename_i heq
    exact .inl ⟨heq, (Option.some.inj h).symm⟩
  · exact .inr h

/-- A task has the new job, or one that was there before. -/
theorem job?_spawn_cases {i : Job} {k : Option TrackerId} (h : (s.spawn j k).2.job? t = some i) :
    t = s.tasks.size ∧ i = j ∨ s.job? t = some i := by
  obtain ⟨task, htask, rfl⟩ := Option.map_eq_some_iff.mp h
  exact (spawn_cases htask).imp (fun h => ⟨h.1, congrArg Task.job h.2⟩) s.job?_eq

/-- The job of a task that has ended. -/
theorem quiet_of_ending (h : ¬ (s.ending? t).isNone = true) : ∀ j, s.job? t = some j → j.Quiet := by
  intro j hj
  obtain ⟨task, htask, rfl⟩ := Option.map_eq_some_iff.mp hj
  obtain ⟨job, op, tracker⟩ := task
  cases job <;> first | trivial | exact absurd (by simp [ending?, htask]) h

/-- When the poll of a task is over, all tasks are ready that were awake, unless that one has ended: no other task has been woken
while it was being polled without being made ready. -/
theorem leave_scheduled (hc : s.world.current = some t) :
    ∃ ready, s.leave t = s.onWorld (·.scheduled ready none false) ∧
      ∀ t', s.world.Awake t' → t' ∈ ready ∨ t' = t ∧ ¬ (s.ending? t).isNone = true := by
  have hawake : ∀ {t'}, s.world.Awake t' → t' ∈ s.world.ready ∨ t' = t ∧ s.world.wokenMeanwhile = true := by
    rintro t' (h | ⟨h, hw⟩)
    · exact .inl h
    · rw [hc] at h
      exact .inr ⟨(Option.some.inj h).symm, hw⟩
  unfold System.leave
  split
  · obtain ⟨ready, heq, ht, hsub⟩ := World.wake_scheduled s.world t
    refine ⟨ready, congrArg (fun w => { s with world := w }) heq.symm, fun t' h => ?_⟩
    rcases hawake h with h | ⟨rfl, -⟩
    · exact .inl (hsub h)
    · exact .inl ht
  · rename_i hnot
    refine ⟨s.world.ready, rfl, fun t' h => (hawake h).imp_right fun ⟨ht, hw⟩ => ⟨ht, fun hend => ?_⟩⟩
    exact hnot (by rw [hw, hend]; rfl)

namespace Sound

/-! ## Changes to the world -/

/-- The world goes on, and nothing that a task has at stake is lost. -/
theorem onWorld (hs : s.Sound c e) {X : Stake → Prop} {f : World → World} (hf : World.Faithful X s.world (f s.world))
    (hX : ∀ t j, s.job? t = some j → e ≠ some t → ∀ x ∈ j.stakes, ¬ X x) : (s.onWorld f).Sound c e where
  keys := hf.keysSound hs.keys
  polled := hf.current.trans hs.polled
  jobs t j hj he := (hs.jobs t j hj he).onward hf (hX t j hj he)
  apart := hs.apart

/-- A system stays sound when code acts on its world. -/
theorem acts (hs : s.Sound c e) {f : World → World} (hf : s.world.Acts (f s.world)) : (s.onWorld f).Sound c e :=
  hs.onWorld hf.toFaithful fun _ _ _ _ _ _ => id

/-- What is done to trackers and registries is of no consequence. -/
theorem of_eq (hs : s.Sound c e) {s' : System} (hw : s'.world = s.world) (ht : s'.tasks = s.tasks) : s'.Sound c e where
  keys := by
    rw [hw]
    exact hs.keys
  polled := by rw [hw, hs.polled]
  jobs t j hj he := by
    rw [hw]
    exact hs.jobs t j (by simpa only [job?, ht] using hj) he
  apart t t' j j' hj hj' := hs.apart t t' j j' (by simpa only [job?, ht] using hj) (by simpa only [job?, ht] using hj')

/-! ## Changes to tasks -/

/-- A task is given another job. -/
theorem setJob (hs : s.Sound c e) (he : e = none ∨ e = some t) (hj : j.Sound t s.world)
    (hx : ∀ t' j', s.job? t' = some j' → t' ≠ t → ∀ x ∈ j.stakes, x ∉ j'.stakes) : (s.setJob t j).Sound c none := by
  have hother : ∀ {t'}, t ≠ t' → e ≠ some t' := by
    rintro t' hne rfl
    rcases he with he | he
    · nomatch he
    · exact hne (Option.some.inj he).symm
  have hcases : ∀ {t' k}, (s.setJob t j).job? t' = some k → t = t' ∧ k = j ∨ t ≠ t' ∧ s.job? t' = some k := by
    intro t' k hk
    rw [job?_setJob] at hk
    split at hk
    · rename_i heq
      obtain ⟨k', -, rfl⟩ := Option.map_eq_some_iff.mp hk
      exact .inl ⟨heq, rfl⟩
    · rename_i hne
      exact .inr ⟨hne, hk⟩
  exact
    { keys := hs.keys
      polled := hs.polled
      jobs := fun t' k hk _ => by
        rcases hcases hk with ⟨rfl, rfl⟩ | ⟨hne, hk⟩
        · exact hj
        · exact hs.jobs t' k hk (hother hne)
      apart := fun a b k l hk hl _ _ hab => by
        rcases hcases hk with ⟨rfl, rfl⟩ | ⟨hna, hk'⟩
        · rcases hcases hl with ⟨rfl, rfl⟩ | ⟨-, hl'⟩
          · exact absurd rfl hab
          · exact hx b l hl' (Ne.symm hab)
        · rcases hcases hl with ⟨rfl, rfl⟩ | ⟨hnb, hl'⟩
          · exact fun x hxk hxl => hx a k hk' hab x hxl hxk
          · exact hs.apart a b k l hk' hl' (hother hna) (hother hnb) hab }

/-- A task that is given a job other than a run is no exception any more. -/
theorem setJob_quiet (hs : s.Sound c e) (he : e = none ∨ e = some t) (hj : j.Quiet) : (s.setJob t j).Sound c none :=
  hs.setJob he hj.sound fun _ _ _ _ x hx => by
    rw [hj.stakes] at hx
    nomatch hx

/-- A task is added. -/
theorem spawn (hs : s.Sound c e) (hj : j.Fresh) (k : Option TrackerId) : (s.spawn j k).2.Sound c e := by
  have hworld : World.Faithful Stake.None s.world (s.world.newOperation.2.wake s.tasks.size) :=
    World.Faithful.newOperation.trans (World.Acts.wake _ _).toFaithful fun _ _ h => h
  exact
    { keys := hworld.keysSound hs.keys
      polled := hworld.current.trans hs.polled
      jobs := fun t i hi he => by
        rcases job?_spawn_cases hi with ⟨rfl, rfl⟩ | hi
        · exact hj.sound (World.awake_wake _ _)
        · exact (hs.jobs t i hi he).onward hworld fun _ _ => id
      apart := fun a b i l hi hl hea heb hab x hx => by
        rcases job?_spawn_cases hi with ⟨rfl, rfl⟩ | hi
        · rw [hj.stakes] at hx
          cases hx
        · rcases job?_spawn_cases hl with ⟨rfl, rfl⟩ | hl
          · rw [hj.stakes]
            exact List.not_mem_nil
          · exact hs.apart a b i l hi hl hea heb hab x hx }

/-- A task that does not exist, or whose job is not a run, need not be excepted. -/
theorem of_quiet (hs : s.Sound c e) (he : e = none ∨ e = some t) (hq : ∀ j, s.job? t = some j → j.Quiet) : s.Sound c none := by
  have hother : ∀ {t'}, t' ≠ t → e ≠ some t' := by
    rintro t' hne rfl
    exact hne (by simpa using he)
  exact
    { keys := hs.keys
      polled := hs.polled
      jobs := fun t' j hj _ => by
        by_cases h : t' = t
        · subst h
          exact (hq j hj).sound
        · exact hs.jobs t' j hj (hother h)
      apart := fun a b i j hi hj _ _ hab x hxi hxj => by
        by_cases ha : a = t
        · rw [(hq i (ha ▸ hi)).stakes] at hxi
          nomatch hxi
        · by_cases hb : b = t
          · rw [(hq j (hb ▸ hj)).stakes] at hxj
            nomatch hxj
          · exact hs.apart a b i j hi hj (hother ha) (hother hb) hab x hxi hxj }

/-! ## What tasks do -/

/-- Counting has no part in soundness. -/
theorem modifyTracker (hs : s.Sound c e) (k : TrackerId) (f : Tracker → Tracker) : (s.modifyTracker k f).Sound c e :=
  hs.of_eq rfl rfl

/-- A tracker that counts a task no longer announces it at most, by which tasks are only woken. -/
theorem untrack (hs : s.Sound c e) (k : TrackerId) : (s.untrack k).Sound c e := by
  unfold System.untrack
  dsimp only
  split
  · exact (hs.modifyTracker k _).acts (.emit _ _)
  · exact hs.modifyTracker k _

/-- A tracker that is closed announces it at most, by which tasks are only woken. -/
theorem close (hs : s.Sound c e) (k : TrackerId) : (s.close k).Sound c e := by
  unfold System.close
  dsimp only
  split
  · exact (hs.modifyTracker k _).acts (.emit _ _)
  · exact hs.modifyTracker k _

/-- A system stays sound when a run is counted. -/
theorem track (hs : s.Sound c e) (r : RegistryId) : (s.track r).2.Sound c e := hs.modifyTracker _ _

/-- A system stays sound when a registry is reset. -/
theorem reset (hs : s.Sound c e) (r : RegistryId) : (s.reset r).Sound c e :=
  (hs.acts (f := (·.record (.forgotten (s.inFlight r)))) (.record _ _)).of_eq rfl rfl

/-- A task ends. -/
theorem finish (hs : s.Sound c e) (he : e = none ∨ e = some t) (x : Ending) : (s.finish t x).Sound c none := by
  unfold System.finish
  split
  · rename_i ht
    refine hs.of_quiet he fun j hj => ?_
    rw [job?, ht] at hj
    cases hj
  · rename_i task _
    have hforgot := hs.acts (f := (·.forget task.op)) (.forget _ _)
    refine Sound.acts (f := (·.emit (.task t))) (Sound.setJob_quiet (j := .ended x) (e := e) ?_ he trivial) (.emit _ _)
    split
    · exact hforgot.untrack _
    · exact hforgot

/-- A task that ends with a last action is no exception any more. -/
theorem finishWith (hs : s.Sound c e) (he : e = none ∨ e = some t) (a : Action Unit) : (s.finishWith t a).Sound c none := by
  have ha : (s.inWorld a.run).2.Sound c e := hs.acts (f := fun w => (a.run w).2) (a.run_acts s.world)
  unfold System.finishWith
  dsimp only
  split
  · exact ha.finish he _
  · exact ha.finish he _

/-- A run that is launched is ready. -/
theorem launch (hs : s.Sound c e) (r : Runtime) (n : Node) (env : Environment) (token : TokenId) :
    (s.launch r n env token).2.Sound c e :=
  Sound.spawn (j := .launched (.start n env token r.interval)) (hs.track r.registry) ⟨n, env, token, r.interval, rfl⟩ _

/-- A new token wakes nobody and is at stake for nobody. -/
theorem newToken (hs : s.Sound c e) : (s.inWorld World.newToken).2.Sound c e :=
  hs.onWorld (X := Stake.None) (f := fun w => w.newToken.2) .newToken fun _ _ _ _ _ _ => id

/-- A run that is executed is ready. -/
theorem execute (hs : s.Sound c e) (r : Runtime) (n : Node) (env : Environment) (token : Option TokenId) :
    (s.execute r n env token).2.Sound c e := by
  cases token with
  | some t => exact hs.launch r n env t
  | none => exact hs.newToken.launch r n env _

/-- A drain that returns opens its tracker again, and ends its task with what the host does then. -/
theorem drained (hs : s.Sound c e) (he : e = none ∨ e = some t) (op : OperationId) (k : TrackerId) (andThen : Action Unit) :
    (s.drained t op k andThen).Sound c none :=
  Sound.finishWith ((hs.acts (f := (·.forget op)) (.forget _ _)).modifyTracker k _) he andThen

/-- A task that waits for a run to end stays sound while that run is under way. -/
theorem awaitRun (hs : s.Sound c e) (op : OperationId) (run : TaskId) {s' : System} (h : s.awaitRun op run = .error s') :
    s'.Sound c e := by
  unfold System.awaitRun at h
  split at h
  · nomatch h
  · obtain rfl := Except.error.inj h
    exact hs.acts (.park _ _ _)

/-- The next part of a job that is not a run. -/
theorem pollJob_quiet (hs : s.Sound c none) (turns : Nat) (op : OperationId) (hj : j.Quiet) :
    (s.pollJob turns t op j).Sound c none := by
  cases j with
  | launched p => exact hj.elim
  | running p => exact hj.elim
  | call r n env token =>
    exact Sound.setJob_quiet ((hs.execute r n env token).acts (.park _ _ _)) (.inl rfl) trivial
  | reporting run =>
    simp only [pollJob]
    split
    · exact hs.finish (.inl rfl) _
    · exact hs.finish (.inl rfl) _
    · rename_i s' h
      exact hs.awaitRun op run h
  | notify run onExit =>
    simp only [pollJob]
    split
    · exact hs.finishWith (.inl rfl) _
    · rename_i s' h
      exact hs.awaitRun op run h
  | future f =>
    have hf : (s.inWorld (f.poll op)).2.Sound c none :=
      hs.acts (f := fun w => (f.poll op w).2) (f.poll_acts op s.world)
    simp only [pollJob]
    split
    · exact hf.setJob_quiet (.inl rfl) trivial
    · exact hf.finish (.inl rfl) _
    · exact hf.finish (.inl rfl) _
  | drain r andThen =>
    have hclosed := (hs.acts (f := (·.record (.draining (s.tracker (s.currentTracker r)).running))) (.record _ _)).close
      (s.currentTracker r)
    simp only [pollJob]
    split
    · exact hclosed.drained (.inl rfl) op _ andThen
    · exact (hclosed.acts (.park _ _ _)).setJob_quiet (.inl rfl) trivial
  | draining k andThen =>
    simp only [pollJob]
    split
    · exact hs.drained (.inl rfl) op k andThen
    · exact hs
  | ended x => exact hs

/-! ## One poll -/

/-- The queue changes, and the task that is being polled. -/
theorem rescheduled (hs : s.Sound c e) {d f : Option TaskId} {ready : List TaskId} {woken : Bool} (he : e = none ∨ e = f)
    (h : ∀ t j, s.job? t = some j → f ≠ some t → s.world.Awake t → (s.world.scheduled ready d woken).Awake t) :
    (s.onWorld (·.scheduled ready d woken)).Sound d f where
  keys := hs.keys
  polled := rfl
  jobs t j hj hne := (hs.jobs t j hj (he.elim (by rintro rfl; nofun) (by rintro rfl; exact hne))).scheduled (h t j hj hne)
  apart a b i j hi hj ha hb := by
    rcases he with rfl | rfl
    · exact hs.apart a b i j hi hj nofun nofun
    · exact hs.apart a b i j hi hj ha hb

/-- A ready task is taken out of the queue in order to be polled. -/
theorem entering (hs : s.Sound none none) (t : TaskId) : (s.onWorld (·.serving t)).Sound (some t) (some t) :=
  hs.rescheduled (.inl rfl) fun t' _ _ hne h => by
    rcases h with h | ⟨hc, -⟩
    · exact .inl ((List.mem_erase_of_ne fun heq => hne (by rw [heq])).mpr h)
    · rw [hs.polled] at hc
      nomatch hc

/-- The process of a task is polled to the end of its poll. What the poll has added was issued in its course, and what others have
at stake was there before. -/
theorem pollRun (hs : s.Sound (some t) (some t)) {turns : Nat} {p : Process} {token : TokenId} (hr : p.Rests turns s.world)
    (hu : p.exit? = none) (hp : p.Holding s.world token) (ha : p.Active t s.world)
    (hx : ∀ t' j', s.job? t' = some j' → t' ≠ t → ∀ x ∈ j'.stakes, x ∉ p.stakes) :
    (s.pollRun turns t p).Sound (some t) none := by
  have hpoll := Process.poll_suspends hr hs.keys hs.polled hu hp ha
  have hne : ∀ {t'}, (some t : Option TaskId) ≠ some t' → t' ≠ t := fun h heq => h (by rw [heq])
  have hpolled : (s.inWorld (p.poll turns)).2.Sound (some t) (some t) :=
    hs.onWorld (f := fun w => (p.poll turns w).2) hpoll.faithful fun t' j' hj he => hx t' j' hj (hne he)
  unfold System.pollRun
  dsimp only
  split
  · rename_i e _
    exact Sound.finish (hpolled.acts (f := (·.record (.runSettled e.describe))) (.record _ _)) (.inr rfl) _
  · rename_i hns
    have hidle := hpoll.idle (Process.exit?_eq_none hns)
    refine hpolled.setJob (.inr rfl) ⟨⟨token, hpoll.holding⟩, hidle⟩ fun t' j' hj hother x hxq hxj => ?_
    rcases hpoll.stakes x hxq with hxp | hnew
    · exact hx t' j' hj hother x hxj hxp
    · exact hnew ((hs.jobs t' j' hj fun heq => hother (Option.some.inj heq).symm).issued x hxj)

/-- The job of a task is polled. -/
theorem pollJob (hs : s.Sound none none) {turns : Nat} {op : OperationId} (hj : s.job? t = some j)
    (hr : j.Rests turns (s.world.serving t)) : ((s.onWorld (·.serving t)).pollJob turns t op j).Sound (some t) none := by
  have hentered := hs.entering t
  have hsound := hs.jobs t j hj nofun
  have hapart : ∀ t' j', s.job? t' = some j' → t' ≠ t → ∀ x ∈ j'.stakes, x ∉ j.stakes := fun t' j' hj' hne =>
    hs.apart t' t j' j hj' hj nofun nofun hne
  have quiet : j.Quiet → ((s.onWorld (·.serving t)).pollJob turns t op j).Sound (some t) none := fun hq =>
    (hentered.of_quiet (.inr rfl) fun i hi => by
      obtain rfl := Option.some.inj (hj.symm.trans hi)
      exact hq).pollJob_quiet turns op hq
  cases j with
  | launched p =>
    obtain ⟨⟨n, env, token, k, rfl⟩, -⟩ := hsound
    have hnoted := hentered.acts (f := (·.record .runStarted)) (.record _ _)
    exact hnoted.pollRun hr rfl (.start n env token k) (.free (.next n rfl)) fun _ _ _ _ _ _ hx => nomatch hx
  | running p =>
    obtain ⟨⟨token, hp⟩, hidle⟩ := hsound
    exact hentered.pollRun hr hidle.unsettled hp.scheduled hidle.active hapart
  | _ => exact quiet trivial

/-- The poll of a task is over. If the task has been woken meanwhile it is ready again. -/
theorem leaving (hs : s.Sound (some t) none) : (s.leave t).Sound none none := by
  obtain ⟨ready, hleft, hawake⟩ := leave_scheduled hs.polled
  rw [hleft]
  by_cases hend : (s.ending? t).isNone = true
  · exact hs.rescheduled (.inl rfl) fun t' _ _ _ h => .inl ((hawake t' h).resolve_right fun h => h.2 hend)
  · refine (hs.rescheduled (f := some t) (.inl rfl) fun t' _ _ hne h => ?_).of_quiet (.inr rfl) (quiet_of_ending hend)
    exact .inl ((hawake t' h).resolve_right fun h => hne (by rw [h.1]))

/-- A ready task is polled. -/
theorem poll (hs : s.Sound none none) {turns : Nat} (hr : ∀ j, s.job? t = some j → j.Rests turns (s.world.serving t)) :
    (s.poll turns t).Sound none none := by
  cases ht : s.tasks[t]? with
  | none =>
    have hnone : s.job? t = none := by rw [job?, ht, Option.map_none]
    have hgone : (s.onWorld (·.scheduled (s.world.ready.erase t) s.world.current s.world.wokenMeanwhile)).Sound
        s.world.current none := hs.rescheduled (.inl rfl) fun t' j hj _ h => by
      have hne : t' ≠ t := by
        rintro rfl
        rw [hnone] at hj
        cases hj
      exact h.imp_left (List.mem_erase_of_ne hne).mpr
    unfold System.poll System.pollTask
    rw [show (s.onWorld fun w => { w with ready := w.ready.erase t }).tasks[t]? = none from ht]
    exact hs.polled ▸ hgone
  | some task =>
    rw [System.poll_eq ht]
    exact (hs.pollJob (s.job?_eq ht) (hr _ (s.job?_eq ht))).leaving

end Sound

end System

end Interruptible
