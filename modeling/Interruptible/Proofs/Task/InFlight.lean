import Interruptible.Proofs.Task.Draining

/-!
# What is in flight

What the tracker of the day of a registry counts, over every history of the registry (`System.Course`): runs are executed and
forked, tasks are polled, the registry is reset, and other things happen meanwhile. Besides the runs that have not settled it
counts the callbacks for the exits of forked runs that have not returned yet (`in_flight_counts`). So the count is that of the
runs exactly when no callback is outstanding, and a run that is forked with a callback is counted twice at first
(`forked_twice`).

A step changes the count together with the tasks under way: none of the counted ones, one less, or one more (`System.Shift`).
-/

namespace Interruptible

/-- A job under way has not ended. -/
theorem Job.Underway.unended {j : Job} (hj : j.Underway) : j.hasEnded = false := by
  cases j with
  | ended e => exact hj.elim
  | _ => rfl

namespace System

/-- What a step does to the tasks under way that a tracker counts, and which of them it starts. -/
inductive Shift (k : TrackerId) (s s' : System) : Finset TaskId → Prop where
  | same (htasks : ∀ u, s'.isCounted k u = s.isCounted k u) (hrunning : (s'.tracker k).running = (s.tracker k).running) :
    Shift k s s' ∅
  /-- One of them ends. -/
  | less {t : TaskId} (ht : s.isCounted k t = true) (ht' : s'.isCounted k t = false)
    (htasks : ∀ u, u ≠ t → s'.isCounted k u = s.isCounted k u)
    (hrunning : (s'.tracker k).running = (s.tracker k).running - 1) : Shift k s s' ∅
  /-- One is added. -/
  | more {t : TaskId} (ht : s.isCounted k t = false) (ht' : s'.isCounted k t = true)
    (htasks : ∀ u, u ≠ t → s'.isCounted k u = s.isCounted k u)
    (hrunning : (s'.tracker k).running = (s.tracker k).running + 1) : Shift k s s' {t}

variable {s s' : System} {k : TrackerId} {t u : TaskId} {op : OperationId} {j : Job} {task : Task} {new : Finset TaskId}

/-- The tasks that a tracker counts are those of its tasks that have not ended. -/
theorem mem_counted_iff :
    (t ∈ (Finset.range s.tasks.size).filter fun t => s.isCounted k t) ↔ s.isCounted k t = true :=
  ⟨fun h => (Finset.mem_filter.mp h).2, mem_counted⟩

/-- A tracker counts as many tasks as before, if it counts the same ones. -/
theorem counted_congr (h : ∀ u, s'.isCounted k u = s.isCounted k u) : s'.counted k = s.counted k :=
  congrArg Finset.card (Finset.ext fun u => by rw [mem_counted_iff, mem_counted_iff, h u])

/-- One task more is counted, and the others as before. -/
theorem counted_insert (ht : s.isCounted k t = false) (ht' : s'.isCounted k t = true)
    (h : ∀ u, u ≠ t → s'.isCounted k u = s.isCounted k u) : s'.counted k = s.counted k + 1 := by
  unfold counted
  rw [← Finset.card_insert_of_notMem (a := t) (by simp [ht])]
  refine congrArg Finset.card (Finset.ext fun u => ?_)
  rw [Finset.mem_insert, mem_counted_iff, mem_counted_iff]
  by_cases hu : u = t
  · simp [hu, ht']
  · simp [hu, h u hu]

namespace Shift

/-- A tracker whose counter agrees with the tasks under way goes on doing so. -/
theorem exact (h : Shift k s s' new) (hs : (s.tracker k).running = s.counted k) : (s'.tracker k).running = s'.counted k := by
  cases h with
  | same htasks hrunning => rw [hrunning, hs, counted_congr htasks]
  | less ht ht' htasks hrunning =>
    have hless := counted_insert ht' ht fun u hu => (htasks u hu).symm
    omega
  | more ht ht' htasks hrunning =>
    have hmore := counted_insert ht ht' htasks
    omega

/-- A task that is counted afterwards has been counted before, or is new. -/
theorem covers (h : Shift k s s' new) (hu : s'.isCounted k u = true) : s.isCounted k u = true ∨ u ∈ new := by
  cases h with
  | same htasks => exact .inl (htasks u ▸ hu)
  | @less t ht =>
    by_cases heq : u = t
    · exact .inl (heq ▸ ht)
    · rename_i htasks _
      exact .inl (htasks u heq ▸ hu)
  | @more t ht ht' htasks =>
    by_cases heq : u = t
    · exact .inr (heq ▸ Finset.mem_singleton_self _)
    · exact .inl (htasks u heq ▸ hu)

/-- What is new is counted. -/
theorem counts_new (h : Shift k s s' new) (hu : u ∈ new) : s'.isCounted k u = true := by
  cases h with
  | same | less => exact absurd hu (Finset.notMem_empty u)
  | more _ ht' => exact Finset.mem_singleton.mp hu ▸ ht'

/-- Before the step, nothing happens to the tasks and the count. -/
theorem after {v : System} (h : Shift k v s' new) (htasks : ∀ u, v.isCounted k u = s.isCounted k u)
    (hrunning : (v.tracker k).running = (s.tracker k).running) : Shift k s s' new := by
  cases h with
  | same h hr => exact .same (fun u => (h u).trans (htasks u)) (hr.trans hrunning)
  | less ht ht' h hr => exact .less (htasks _ ▸ ht) ht' (fun u hu => (h u hu).trans (htasks u)) (hrunning ▸ hr)
  | more ht ht' h hr => exact .more (htasks _ ▸ ht) ht' (fun u hu => (h u hu).trans (htasks u)) (hrunning ▸ hr)

/-- After the step, nothing happens to the tasks and the count. -/
theorem before {v : System} (h : Shift k s v new) (htasks : ∀ u, s'.isCounted k u = v.isCounted k u)
    (hrunning : (s'.tracker k).running = (v.tracker k).running) : Shift k s s' new := by
  cases h with
  | same h hr => exact .same (fun u => (htasks u).trans (h u)) (hrunning.trans hr)
  | less ht ht' h hr => exact .less ht ((htasks _).trans ht') (fun u hu => (htasks u).trans (h u hu)) (hrunning.trans hr)
  | more ht ht' h hr => exact .more ht ((htasks _).trans ht') (fun u hu => (htasks u).trans (h u hu)) (hrunning.trans hr)

theorem refl (k : TrackerId) (s : System) : Shift k s s ∅ := .same (fun _ => rfl) rfl

end Shift

/-! ## What the steps do to the count -/

/-- Who is counted by a tracker depends on the tasks only. -/
theorem isCounted_eq (h : s'.tasks = s.tasks) (k : TrackerId) (u : TaskId) : s'.isCounted k u = s.isCounted k u := by
  unfold isCounted
  rw [h]

/-- A task that is given another job is counted as before, as long as neither job has ended. -/
theorem isCounted_setJob (ht : s.tasks[t]? = some task) (hj : task.job.hasEnded = false) (hj' : j.hasEnded = false)
    (k : TrackerId) (u : TaskId) : (s.setJob t j).isCounted k u = s.isCounted k u := by
  unfold isCounted
  rw [getElem?_setJob]
  by_cases hu : t = u
  · subst hu
    simp [ht, hj, hj']
  · rw [if_neg hu]

/-- Other tasks are counted as before when a task ends. -/
theorem isCounted_finish (s : System) (t : TaskId) (x : Ending) (k : TrackerId) (hu : u ≠ t) :
    (s.finish t x).isCounted k u = s.isCounted k u := by
  unfold isCounted
  rw [getElem?_finish, if_neg hu.symm]

/-- A task that has ended is not counted. -/
theorem isCounted_finish_self (s : System) (t : TaskId) (x : Ending) (k : TrackerId) :
    (s.finish t x).isCounted k t = false := by
  unfold isCounted
  rw [getElem?_finish, if_pos rfl]
  cases s.tasks[t]? with
  | none => rfl
  | some task => exact Bool.and_false _

/-- A new task is counted by the tracker that it was given, if its job has not ended already. -/
theorem isCounted_spawn (s : System) (j : Job) (c : Option TrackerId) (k : TrackerId) (u : TaskId) :
    (s.spawn j c).2.isCounted k u = if u = s.tasks.size then c == some k && !j.hasEnded else s.isCounted k u := by
  unfold isCounted
  rw [getElem?_spawn]
  by_cases hu : u = s.tasks.size
  · simp [hu]
  · simp [hu]

/-- A task that does not exist is not counted. -/
theorem isCounted_size (s : System) (k : TrackerId) : s.isCounted k s.tasks.size = false :=
  Bool.eq_false_iff.mpr fun h => Nat.lt_irrefl _ (lt_of_isCounted h)

namespace Shift

/-- The job of a task under way is replaced by another one: no task is added to those that are counted. -/
theorem setJob (ht : s.tasks[t]? = some task) (hj : task.job.hasEnded = false) (hj' : j.hasEnded = false) (k : TrackerId) :
    Shift k s (s.setJob t j) ∅ :=
  .same (isCounted_setJob ht hj hj' k) rfl

/-- A task under way ends: its tracker counts one task less. -/
theorem finish (ht : s.tasks[t]? = some task) (hj : task.job.hasEnded = false) (x : Ending) (k : TrackerId) :
    Shift k s (s.finish t x) ∅ := by
  have hrunning := running_finish ht x k
  by_cases hk : task.tracker = some k
  · rw [if_pos hk] at hrunning
    exact .less (isCounted_eq_true.mpr ⟨task, ht, hk, hj⟩) (isCounted_finish_self s t x k)
      (fun u hu => isCounted_finish s t x k hu) hrunning
  · rw [if_neg hk] at hrunning
    refine .same (fun u => ?_) hrunning
    by_cases hu : u = t
    · subst hu
      rw [isCounted_finish_self]
      refine (Bool.eq_false_iff.mpr fun h => ?_).symm
      obtain ⟨task', ht', hk', -⟩ := isCounted_eq_true.mp h
      exact hk (Option.some.inj (ht'.symm.trans ht) ▸ hk')
    · exact isCounted_finish s t x k hu

/-- A task is added that another tracker counts, or none. -/
theorem spawn {c : Option TrackerId} (hc : c ≠ some k) (j : Job) : Shift k s (s.spawn j c).2 ∅ := by
  refine .same (fun u => ?_) rfl
  rw [isCounted_spawn]
  split
  · rename_i hu
    subst hu
    rw [isCounted_size]
    simp [hc]
  · rfl

/-- Another tracker counts one task more. -/
theorem track {r : RegistryId} (hk : s.currentTracker r ≠ k) : Shift k s (s.track r).2 ∅ := by
  refine .same (fun _ => rfl) ?_
  have hsame : (s.track r).2.tracker k = _ := s.tracker_modifyTracker _ k _
  rw [hsame, if_neg fun h => hk h.1]

/-- A task is counted and added at once. -/
theorem trackedSpawn {r : RegistryId} (hr : s.currentTracker r < s.trackers.size) (hj : j.hasEnded = false) :
    Shift (s.currentTracker r) s ((s.track r).2.spawn j (some (s.currentTracker r))).2 {s.tasks.size} := by
  have htasks : ∀ u, ((s.track r).2.spawn j (some (s.currentTracker r))).2.isCounted (s.currentTracker r) u =
      if u = s.tasks.size then true else s.isCounted (s.currentTracker r) u := fun u => by
    have h := isCounted_spawn (s.track r).2 j (some (s.currentTracker r)) (s.currentTracker r) u
    simp only [beq_self_eq_true, hj, Bool.not_false, Bool.and_self] at h
    exact h
  refine .more (isCounted_size _ _) ((htasks _).trans (if_pos rfl)) (fun u hu => (htasks u).trans (if_neg hu)) ?_
  have hrunning : (((s.track r).2.spawn j (some (s.currentTracker r))).2.tracker (s.currentTracker r)).running =
      ((s.track r).2.tracker (s.currentTracker r)).running := rfl
  rw [hrunning, running_track hr, if_pos rfl]

/-- A run is launched: the tracker of its registry counts one task more. -/
theorem launch {r : Runtime} (hr : s.currentTracker r.registry < s.trackers.size) (n : Node) (env : Environment)
    (token : TokenId) : Shift (s.currentTracker r.registry) s (s.launch r n env token).2 {s.tasks.size} :=
  trackedSpawn (j := .launched (.start n env token r.interval)) hr rfl

/-- A run is started on another registry. -/
theorem launchElsewhere {r : Runtime} (hk : s.currentTracker r.registry ≠ k) (n : Node) (env : Environment) (token : TokenId) :
    Shift k s (s.launch r n env token).2 ∅ :=
  (spawn (s := (s.track r.registry).2) (by simpa [System.track] using hk) _).after (fun _ => rfl)
    (by
      have h : (s.track r.registry).2.tracker k = _ := s.tracker_modifyTracker _ k _
      rw [h, if_neg fun h => hk h.1])

end Shift

/-! ## Polls -/

/-- The run that is started on a registry when a task is polled: a call starts one. -/
def called (s : System) (r : RegistryId) (t : TaskId) : Finset TaskId :=
  match s.job? t with
  | some (.call rt _ _ _) => if rt.registry = r then {s.tasks.size} else ∅
  | _ => ∅

/-- Only a task whose job is a call starts a run. -/
theorem called_of_ne (h : ∀ rt n env token, s.job? t ≠ some (.call rt n env token)) (r : RegistryId) : s.called r t = ∅ := by
  unfold called
  split
  · rename_i heq
    exact absurd heq (h _ _ _ _)
  · rfl

/-- Registries keep their trackers when a task is counted no longer. -/
theorem registries_untrack (s : System) (k : TrackerId) : (s.untrack k).registries = s.registries := by
  unfold untrack
  dsimp only
  split <;> rfl

/-- The registries go on with other trackers only if they are reset. -/
theorem Does.registries (h : s.Does t op j s') : s'.registries = s.registries := by
  have finished (v : System) (x : Ending) : (v.finish t x).registries = v.registries := by
    unfold finish
    split
    · rfl
    · dsimp only
      split
      · exact registries_untrack _ _
      · rfl
  have closed (v : System) (k : TrackerId) : (v.close k).registries = v.registries := by
    unfold close
    dsimp only
    split <;> rfl
  cases h with
  | lasts | goesOn | launches | stays => rfl
  | ends _ _ x => exact finished _ x
  | linesUp => exact closed _ _
  | passesAtOnce _ _ _ _ x => exact (finished _ x).trans (closed _ _)
  | passes _ _ _ x => exact finished _ x

/-- The poll of a task ends at most that one, or starts a run. -/
theorem Does.shift {c : Option TrackerId} {r : RegistryId} (h : s.Does t op j s')
    (ht : s.tasks[t]? = some { job := j, op := op, tracker := c }) (hr : s.currentTracker r < s.trackers.size)
    (hdistinct : ∀ rt n env token, j = .call rt n env token → s.currentTracker rt.registry = s.currentTracker r → rt.registry = r) :
    Shift (s.currentTracker r) s s' (s.called r t) := by
  have hjob := s.job?_eq ht
  have still (hj : ∀ rt n env token, j ≠ .call rt n env token) : s.called r t = ∅ :=
    called_of_ne (fun rt n env token h => hj rt n env token (Option.some.inj (hjob.symm.trans h))) r
  have working (hj : j.Works) : ∀ rt n env token, j ≠ .call rt n env token := by
    rintro rt n env token rfl
    exact hj
  have closed (w : World) (k : TrackerId) :
      (∀ u, ({ s with world := w }.close k).isCounted (s.currentTracker r) u = s.isCounted (s.currentTracker r) u) ∧
        (({ s with world := w }.close k).tracker (s.currentTracker r)).running = (s.tracker (s.currentTracker r)).running ∧
        ({ s with world := w }.close k).tasks[t]? = some { job := j, op := op, tracker := c } :=
    ⟨isCounted_eq (tasks_close { s with world := w } k) _, running_close { s with world := w } k _,
      (getElem?_close { s with world := w } k t).trans ht⟩
  cases h with
  | lasts hj => exact still (by rintro rt n env token rfl; exact hj) ▸ .same (fun _ => rfl) rfl
  | @goesOn w _ hj _ hj' =>
    rw [still (working hj)]
    exact (Shift.setJob (s := { s with world := w }) ht hj.unended hj'.unended _).after (fun _ => rfl) rfl
  | @ends w hj _ x =>
    rw [still (working hj)]
    exact (Shift.finish (s := { s with world := w }) ht hj.unended x _).after (fun _ => rfl) rfl
  | @launches w rt n env _ hj _ token =>
    subst hj
    have ht' := getElem?_launch_of_some (s := { s with world := w }) ht rt n env token
    have htasks : ∀ k u, (((System.launch { s with world := w } rt n env token).2.onWorld
        (·.park (.task s.tasks.size) op)).setJob t (.reporting s.tasks.size)).isCounted k u =
          (System.launch { s with world := w } rt n env token).2.isCounted k u :=
      isCounted_setJob (s := (System.launch { s with world := w } rt n env token).2.onWorld _) ht' rfl rfl
    have hcalled : s.called r t = if rt.registry = r then {s.tasks.size} else ∅ := by
      simp only [called, hjob]
    rw [hcalled]
    split
    · rename_i heq
      subst heq
      exact ((Shift.launch (s := { s with world := w }) hr n env token).after (s := s) (fun _ => rfl) rfl).before (htasks _) rfl
    · rename_i hne
      have hother : s.currentTracker rt.registry ≠ s.currentTracker r := fun h => hne (hdistinct rt n env _ rfl h)
      exact ((Shift.launchElsewhere (s := { s with world := w }) hother n env token).after (s := s) (fun _ => rfl) rfl).before
        (htasks _) rfl
  | @linesUp w rt a hj _ _ =>
    rw [still (by rintro _ _ _ _ rfl; nomatch hj)]
    obtain ⟨htasks, hrunning, ht'⟩ := closed w (s.currentTracker rt)
    exact (Shift.setJob (j := .draining (s.currentTracker rt) a)
      (s := (System.close { s with world := w } (s.currentTracker rt)).onWorld _) ht' (by rw [hj]; rfl) rfl _).after htasks hrunning
  | @passesAtOnce w v rt a hj _ _ _ x =>
    rw [still (by rintro _ _ _ _ rfl; nomatch hj)]
    obtain ⟨htasks, hrunning, ht'⟩ := closed w (s.currentTracker rt)
    refine (Shift.finish (s := { (System.close { s with world := w } (s.currentTracker rt)).reopen (s.currentTracker rt) with
        world := v }) ht' (by rw [hj]; rfl) x _).after htasks ?_
    exact (running_reopen _ _ _).trans hrunning
  | stays hj => exact still (by rintro _ _ _ _ rfl; nomatch hj) ▸ .refl _ s
  | @passes w k a hj _ _ x =>
    rw [still (by rintro _ _ _ _ rfl; nomatch hj)]
    exact (Shift.finish (s := { s.reopen k with world := w }) ht (by rw [hj]; rfl) x _).after (fun _ => rfl)
      (running_reopen s k _)

/-! ## Registries have trackers of their own -/

/-- No two registries have the same tracker. -/
def Distinct (s : System) : Prop :=
  ∀ r r', r < s.registries.size → r' < s.registries.size → s.currentTracker r = s.currentTracker r' → r = r'

/-- The tracker of a registry is read off from the registries. -/
theorem currentTracker_eq (h : s'.registries = s.registries) (r : RegistryId) : s'.currentTracker r = s.currentTracker r := by
  unfold currentTracker
  rw [h]

/-- Registries that stay the same go on having trackers of their own. -/
theorem Distinct.of_eq (hs : s.Distinct) (h : s'.registries = s.registries) : s'.Distinct := by
  intro r r' hr hr' heq
  rw [currentTracker_eq h, currentTracker_eq h] at heq
  exact hs r r' (h ▸ hr) (h ▸ hr') heq

/-- A new registry has a new tracker, and the others keep theirs. -/
theorem currentTracker_newRegistry {r : RegistryId} (hr : r < s.newRegistry.2.registries.size) :
    r = s.registries.size ∧ s.newRegistry.2.currentTracker r = s.trackers.size ∨
      r < s.registries.size ∧ s.newRegistry.2.currentTracker r = s.currentTracker r := by
  rcases Nat.lt_succ_iff_lt_or_eq.mp (Nat.lt_of_lt_of_eq hr (Array.size_push _)) with hlt | rfl
  · refine .inr ⟨hlt, ?_⟩
    simp only [newRegistry, currentTracker, Array.getElem?_push, if_neg (Nat.ne_of_lt hlt)]
  · refine .inl ⟨rfl, ?_⟩
    simp only [newRegistry, currentTracker, Array.getElem?_push]
    rfl

/-- A registry that is reset goes on with a new tracker, and the others keep theirs. -/
theorem currentTracker_reset (s : System) (p : RegistryId) {r : RegistryId} (hr : r < s.registries.size) :
    (s.reset p).currentTracker r = if p = r then s.trackers.size else s.currentTracker r := by
  simp only [reset, currentTracker, Array.getElem?_modify]
  split <;> simp [hr]

/-- No move gives two registries the same tracker: a new one and one that is reset are given a new tracker. -/
theorem Move.distinct (h : Move s s') (hs : s.Attained) (hd : s.Distinct) : s'.Distinct := by
  have hlined := hs.lined
  cases h with
  | @poll t turns _ hn =>
    cases ht : s.tasks[t]? with
    | none =>
      rw [poll_none ht]
      exact hd
    | some task =>
      obtain ⟨v, ready, hdoes, hpoll⟩ := hs.polled ht hn
      rw [hpoll]
      exact hd.of_eq hdoes.registries
  | host | launch | spawn | hold | spawnHeld => exact hd
  | @dropHeld k => exact hd.of_eq (registries_untrack s k)
  | newRegistry =>
    intro r r' hr hr' heq
    rcases currentTracker_newRegistry hr with ⟨rfl, hnew⟩ | ⟨hr, hold⟩ <;>
      rcases currentTracker_newRegistry hr' with ⟨rfl, hnew'⟩ | ⟨hr', hold'⟩
    · rfl
    · rw [hnew, hold'] at heq
      exact absurd (heq ▸ hlined.registries r' hr') (Nat.lt_irrefl _)
    · rw [hold, hnew'] at heq
      exact absurd (heq ▸ hlined.registries r hr) (Nat.lt_irrefl _)
    · rw [hold, hold'] at heq
      exact hd r r' hr hr' heq
  | reset p =>
    intro r r' hr hr' heq
    have hsize : (s.reset p).registries.size = s.registries.size := Array.size_modify
    rw [hsize] at hr hr'
    rw [currentTracker_reset s p hr, currentTracker_reset s p hr'] at heq
    split at heq <;> split at heq
    · simp_all
    · exact absurd (heq ▸ hlined.registries r' hr') (Nat.lt_irrefl _)
    · exact absurd (heq ▸ hlined.registries r hr) (Nat.lt_irrefl _)
    · exact hd r r' hr hr' heq

/-- In every attained state, registries have trackers of their own. -/
theorem Attained.distinct (hs : s.Attained) : s.Distinct := by
  induction hs with
  | refl => exact fun _ _ h => nomatch h
  | tail hs h ih => exact h.distinct hs ih

/-! ## The history of a registry -/

/-- What happens while a registry is left alone: the host acts, tasks are started that no tracker counts, and other registries
are made, used and reset. -/
inductive Beside (r : RegistryId) : System → System → Prop where
  | host {s : System} {w : World} (h : s.world.Hosted w) : Beside r s { s with world := w }
  | spawn {s : System} {j : Job} (hj : j.Begins s) : Beside r s (s.spawn j none).2
  | launch {s : System} {rt : Runtime} (hrt : rt.registry < s.registries.size) (hne : rt.registry ≠ r) (n : Node)
    (env : Environment) (token : TokenId) : Beside r s (s.launch rt n env token).2
  | hold {s : System} {q : RegistryId} (hq : q < s.registries.size) (hne : q ≠ r) : Beside r s (s.track q).2
  | spawnHeld {s : System} {j : Job} {k : TrackerId} (hj : j.Begins s) (hk : s.counted k < (s.tracker k).running) :
    Beside r s (s.spawn j (some k)).2
  | dropHeld {s : System} {k : TrackerId} (hk : s.counted k < (s.tracker k).running) : Beside r s (s.untrack k)
  | newRegistry {s : System} : Beside r s s.newRegistry.2
  | reset {s : System} {q : RegistryId} (hne : q ≠ r) : Beside r s (s.reset q)

/-- What happens while a registry is left alone is a move of the system. -/
theorem Beside.move {r : RegistryId} (h : Beside r s s') : Move s s' := by
  cases h with
  | host h => exact .host h
  | spawn hj => exact .spawn hj
  | launch hrt _ n env token => exact .launch hrt n env token
  | hold hq => exact .hold hq
  | spawnHeld hj hk => exact .spawnHeld hj hk
  | dropHeld hk => exact .dropHeld hk
  | newRegistry => exact .newRegistry
  | reset => exact .reset _

/-- The history of a registry, with the runs that have been started on it since the last reset and the callbacks for exits of
such runs. A run that is forked without a callback is one that is executed together with its token. -/
inductive Course (r : RegistryId) : (runs callbacks : Finset TaskId) → System → Prop where
  | created {s : System} (hs : s.Attained) (hr : s.newRegistry.1 = r) : Course r ∅ ∅ s.newRegistry.2
  | executed {runs callbacks : Finset TaskId} {s : System} (h : Course r runs callbacks s) {rt : Runtime} (hrt : rt.registry = r)
    (n : Node) (env : Environment) (token : Option TokenId) :
    Course r (insert (s.execute rt n env token).1 runs) callbacks (s.execute rt n env token).2
  | executedWithCancel {runs callbacks : Finset TaskId} {s : System} (h : Course r runs callbacks s) {rt : Runtime}
    (hrt : rt.registry = r) (n : Node) (env : Environment) :
    Course r (insert (s.executeWithCancel rt n env).1 runs) callbacks (s.executeWithCancel rt n env).2.2
  /-- A run is forked, and the task after it calls back. -/
  | forkedWith {runs callbacks : Finset TaskId} {s : System} (h : Course r runs callbacks s) {rt : Runtime} (hrt : rt.registry = r)
    (n : Node) (env : Environment) (onExit : Exit Value Payload → Action Unit) :
    Course r (insert s.tasks.size runs) (insert (s.tasks.size + 1) callbacks) (s.forkWith rt n env onExit).2
  | reset {runs callbacks : Finset TaskId} {s : System} (h : Course r runs callbacks s) : Course r ∅ ∅ (s.reset r)
  | polled {runs callbacks : Finset TaskId} {s : System} (h : Course r runs callbacks s) {t : TaskId} {turns : Nat}
    (ht : t ∈ s.world.ready) (hn : ∀ k, s.poll (turns + k) t = s.poll turns t) :
    Course r (runs ∪ s.called r t) callbacks (s.poll turns t)
  | beside {runs callbacks : Finset TaskId} {s s' : System} (h : Course r runs callbacks s) (hm : Beside r s s') :
    Course r runs callbacks s'

/-- Those of some tasks that have not ended. -/
def unended (s : System) (ts : Finset TaskId) : Finset TaskId := ts.filter fun t => (s.ending? t).isNone

/-- In the history of a registry, its tracker of the day counts the runs and callbacks that are under way, and nothing else. -/
structure Course.Invariant (r : RegistryId) (runs callbacks : Finset TaskId) (s : System) : Prop where
  attained : s.Attained
  registered : r < s.registries.size
  exact : (s.tracker (s.currentTracker r)).running = s.counted (s.currentTracker r)
  covers : ∀ t, s.isCounted (s.currentTracker r) t = true → t ∈ runs ∪ callbacks
  tracked : ∀ t ∈ runs ∪ callbacks, s.Tracks (s.currentTracker r) t
  disjoint : Disjoint runs callbacks

/-- A task stays with its tracker, whatever moves follow. -/
theorem tracks_of_moves (hs : s.Attained) (hm : Relation.ReflTransGen Move s s') (ht : s.Tracks k t) : s'.Tracks k t := by
  induction hm with
  | refl => exact ht
  | tail hm h ih => exact h.tracks (hs.trans hm) ih

/-- A task that a tracker was told to track is counted as long as it has not ended. -/
theorem Tracks.isCounted_iff (h : s.Tracks k t) : s.isCounted k t = true ↔ (s.ending? t).isNone = true := by
  obtain ⟨task, ht, hk⟩ := h
  rw [isCounted_eq_true]
  constructor
  · rintro ⟨task', ht', -, hu⟩
    obtain rfl := Option.some.inj (ht.symm.trans ht')
    rw [Option.isNone_iff_eq_none, Option.eq_none_iff_forall_ne_some]
    intro x hx
    rw [ending?_eq_some, s.job?_eq ht] at hx
    rw [Option.some.inj hx] at hu
    nomatch hu
  · intro hnone
    refine ⟨task, ht, hk, Bool.eq_false_iff.mpr fun hu => ?_⟩
    cases hj : task.job with
    | ended x =>
      have hx := ending?_eq_some.mpr ((s.job?_eq ht).trans (congrArg some hj))
      rw [hx] at hnone
      nomatch hnone
    | _ =>
      rw [hj] at hu
      nomatch hu

namespace Course.Invariant

variable {r : RegistryId} {runs callbacks : Finset TaskId}

/-- The tracker of the registry exists. -/
theorem currentTracker_lt (hi : Invariant r runs callbacks s) : s.currentTracker r < s.trackers.size :=
  hi.attained.lined.registries r hi.registered

/-- The number that is in flight is that of the runs and callbacks under way. -/
theorem counts (hi : Invariant r runs callbacks s) : s.inFlight r = (s.unended runs).card + (s.unended callbacks).card := by
  unfold inFlight unended
  rw [hi.exact, ← Finset.card_union_of_disjoint (Finset.disjoint_filter_filter hi.disjoint), ← Finset.filter_union]
  refine congrArg Finset.card (Finset.ext fun t => ?_)
  rw [mem_counted_iff, Finset.mem_filter]
  exact ⟨fun h => ⟨hi.covers t h, (hi.tracked t (hi.covers t h)).isCounted_iff.mp h⟩,
    fun h => (hi.tracked t h.1).isCounted_iff.mpr h.2⟩

/-- A task that is added is none of those counted so far. -/
theorem fresh (hi : Invariant r runs callbacks s) : s.tasks.size ∉ runs ∪ callbacks := fun h => by
  obtain ⟨task, ht, -⟩ := hi.tracked _ h
  exact Nat.lt_irrefl _ (Array.getElem?_eq_some_iff.mp ht).1

/-- The step lemma: the registry keeps its tracker, and those newly counted are new runs or new callbacks. -/
theorem step {runs' callbacks' : Finset TaskId} (hi : Invariant r runs callbacks s) (hm : Relation.ReflTransGen Move s s')
    (hr : r < s'.registries.size) (hk : s'.currentTracker r = s.currentTracker r) (hshift : Shift (s.currentTracker r) s s' new)
    (hnew : runs' ∪ callbacks' = runs ∪ callbacks ∪ new) (hdisjoint : Disjoint runs' callbacks') :
    Invariant r runs' callbacks' s' := by
  refine ⟨hi.attained.trans hm, hr, ?_, fun t ht => ?_, fun t ht => ?_, hdisjoint⟩
  · rw [hk]
    exact hshift.exact hi.exact
  · rw [hnew, Finset.mem_union]
    rw [hk] at ht
    exact (hshift.covers ht).imp_left (hi.covers t)
  · rw [hnew, Finset.mem_union] at ht
    rw [hk]
    rcases ht with ht | ht
    · exact tracks_of_moves hi.attained hm (hi.tracked t ht)
    · obtain ⟨task, htask, htracker, -⟩ := isCounted_eq_true.mp (hshift.counts_new ht)
      exact ⟨task, htask, htracker⟩

/-- A run is started. -/
theorem started (hi : Invariant r runs callbacks s) (hm : Relation.ReflTransGen Move s s') (hr : s'.registries = s.registries)
    (hshift : Shift (s.currentTracker r) s s' {s.tasks.size}) : Invariant r (insert s.tasks.size runs) callbacks s' := by
  refine hi.step hm (hr ▸ hi.registered) (currentTracker_eq hr r) hshift ?_ ?_
  · rw [Finset.insert_union, Finset.union_comm _ {_}, Finset.insert_eq]
  · exact Finset.disjoint_insert_left.mpr ⟨fun h => hi.fresh (Finset.mem_union_right _ h), hi.disjoint⟩

/-- A callback is started. -/
theorem attached (hi : Invariant r runs callbacks s) (hm : Relation.ReflTransGen Move s s') (hr : s'.registries = s.registries)
    (hshift : Shift (s.currentTracker r) s s' {s.tasks.size}) : Invariant r runs (insert s.tasks.size callbacks) s' := by
  refine hi.step hm (hr ▸ hi.registered) (currentTracker_eq hr r) hshift ?_ ?_
  · rw [Finset.union_insert, Finset.union_comm _ {_}, Finset.insert_eq]
  · exact Finset.disjoint_insert_right.mpr ⟨fun h => hi.fresh (Finset.mem_union_left _ h), hi.disjoint⟩

/-- Nothing is started on the registry. -/
theorem rest (hi : Invariant r runs callbacks s) (hm : Move s s') (hr : s'.registries = s.registries)
    (hshift : Shift (s.currentTracker r) s s' ∅) : Invariant r runs callbacks s' :=
  hi.step (.single hm) (hr ▸ hi.registered) (currentTracker_eq hr r) hshift (Finset.union_empty _).symm hi.disjoint

/-- The registry has a tracker that has not counted anything. -/
theorem blank (hs : s.Attained) (hr : r < s.registries.size) (hzero : (s.tracker (s.currentTracker r)).running = 0) :
    Invariant r ∅ ∅ s := by
  have hnone : s.counted (s.currentTracker r) = 0 := Nat.le_zero.mp (hzero ▸ hs.counts (s.currentTracker r))
  refine ⟨hs, hr, hzero.trans hnone.symm, fun t ht => ?_, fun t ht => absurd ht (Finset.notMem_empty t), Finset.disjoint_empty_left _⟩
  have hmem := mem_counted ht
  rw [Finset.card_eq_zero.mp hnone] at hmem
  exact absurd hmem (Finset.notMem_empty t)

/-- The invariant is preserved when a task is polled; a call adds the run that it starts. -/
theorem poll (hi : Invariant r runs callbacks s) (ht : t ∈ s.world.ready) {turns : Nat}
    (hn : ∀ k, s.poll (turns + k) t = s.poll turns t) : Invariant r (runs ∪ s.called r t) callbacks (s.poll turns t) := by
  have hmove : Move s (s.poll turns t) := .poll ht hn
  have hlined := hi.attained.lined
  have hdisjoint : Disjoint (runs ∪ s.called r t) callbacks := by
    refine Finset.disjoint_union_left.mpr ⟨hi.disjoint, ?_⟩
    unfold called
    split
    · split
      · exact Finset.disjoint_singleton_left.mpr fun h => hi.fresh (Finset.mem_union_right _ h)
      · exact Finset.disjoint_empty_left _
    · exact Finset.disjoint_empty_left _
  have hshift : (s.poll turns t).registries = s.registries ∧ Shift (s.currentTracker r) s (s.poll turns t) (s.called r t) := by
    cases htask : s.tasks[t]? with
    | none =>
      have hcalled : s.called r t = ∅ := called_of_ne (by simp [job?, htask]) r
      rw [poll_none htask, hcalled]
      exact ⟨rfl, .same (fun _ => rfl) rfl⟩
    | some task =>
      obtain ⟨v, ready, hdoes, hpoll⟩ := hi.attained.polled htask hn
      rw [hpoll]
      refine ⟨hdoes.registries, ((hdoes.shift htask hi.currentTracker_lt ?_).after (s := s) (fun _ => rfl) rfl).before
        (fun _ => rfl) rfl⟩
      intro rt n env token hj heq
      have hplaced := hlined.jobs t task htask fun h => by cases h
      rw [hj] at hplaced
      exact hi.attained.distinct _ _ hplaced hi.registered heq
  refine hi.step (.single hmove) (hshift.1 ▸ hi.registered) (currentTracker_eq hshift.1 r) hshift.2 ?_ hdisjoint
  rw [Finset.union_right_comm]

/-- The invariant is preserved by what happens beside the registry. -/
theorem beside (hi : Invariant r runs callbacks s) (h : Beside r s s') : Invariant r runs callbacks s' := by
  have hm := h.move
  have hdistinct := hi.attained.distinct
  have held : ∀ k, s.counted k < (s.tracker k).running → s.currentTracker r ≠ k := by
    rintro k hk rfl
    exact Nat.ne_of_gt hk hi.exact
  cases h with
  | host => exact hi.rest hm rfl (.same (fun _ => rfl) rfl)
  | spawn => exact hi.rest hm rfl (.spawn (c := none) nofun _)
  | launch hrt hne n env token => exact hi.rest hm rfl (.launchElsewhere (fun h => hne (hdistinct _ _ hrt hi.registered h)) n env token)
  | hold hq hne => exact hi.rest hm rfl (.track fun h => hne (hdistinct _ _ hq hi.registered h))
  | spawnHeld hj hk => exact hi.rest hm rfl (.spawn (fun h => held _ hk (Option.some.inj h).symm) _)
  | @dropHeld k hk =>
    refine hi.rest hm (registries_untrack s k) (.same (isCounted_eq (tasks_untrack s k) _) ?_)
    rw [running_untrack, if_neg (held k hk).symm]
    rfl
  | newRegistry =>
    have hr : r < s.newRegistry.2.registries.size :=
      Nat.lt_of_lt_of_eq (Nat.lt_succ_of_lt hi.registered) (Array.size_push _).symm
    have hk : s.newRegistry.2.currentTracker r = s.currentTracker r :=
      ((currentTracker_newRegistry hr).resolve_left fun h => Nat.ne_of_lt hi.registered h.1).2
    exact hi.step (.single hm) hr hk (.same (fun _ => rfl) (congrArg Tracker.running (s.tracker_push _ _)))
      (Finset.union_empty _).symm hi.disjoint
  | @reset q hne =>
    have hr : r < (s.reset q).registries.size := Nat.lt_of_lt_of_eq hi.registered Array.size_modify.symm
    have hk := (currentTracker_reset s q hi.registered).trans (if_neg hne)
    have hrunning := congrArg Tracker.running (s.tracker_push (s.registries.modify q fun _ => s.trackers.size) (s.currentTracker r))
    exact hi.step (.single hm) hr hk (.same (fun _ => rfl) hrunning) (Finset.union_empty _).symm hi.disjoint

end Course.Invariant

/-- The invariant holds throughout the history of a registry. The induction is on the history. -/
theorem Course.invariant {r : RegistryId} {runs callbacks : Finset TaskId} (h : Course r runs callbacks s) :
    Invariant r runs callbacks s := by
  induction h with
  | @created s hs hr =>
    subst hr
    have hr : s.registries.size < s.newRegistry.2.registries.size :=
      Nat.lt_of_lt_of_eq (Nat.lt_succ_self _) (Array.size_push _).symm
    have hk := ((currentTracker_newRegistry hr).resolve_right fun h => Nat.lt_irrefl _ h.1).2
    refine .blank (hs.tail .newRegistry) hr ?_
    rw [show s.newRegistry.1 = s.registries.size from rfl, hk]
    exact congrArg Tracker.running ((s.tracker_push _ _).trans (tracker_eq_default (Nat.le_refl _)))
  | @executed runs callbacks s _ rt hrt n env token ih =>
    subst hrt
    have hm := execute_moves ih.registered n env token
    cases token with
    | some token => exact ih.started hm rfl (.launch ih.currentTracker_lt n env token)
    | none =>
      exact ih.started hm rfl ((Shift.launch (s := { s with world := s.world.newToken.2 }) ih.currentTracker_lt n env _).after
        (fun _ => rfl) rfl)
  | @executedWithCancel runs callbacks s _ rt hrt n env ih =>
    subst hrt
    exact ih.started (executeWithCancel_moves ih.registered n env) rfl
      ((Shift.launch (s := { s with world := s.world.newToken.2 }) ih.currentTracker_lt n env _).after (fun _ => rfl) rfl)
  | @forkedWith runs callbacks s _ rt hrt n env onExit ih =>
    subst hrt
    have hexecuted := ih.started (executeWithCancel_moves ih.registered n env) rfl
      ((Shift.launch (s := { s with world := s.world.newToken.2 }) ih.currentTracker_lt n env _).after (fun _ => rfl) rfl)
    have hheld := hexecuted.attained.counts.holds hexecuted.currentTracker_lt
    have hcallback := hexecuted.attached ((Relation.ReflTransGen.single (.hold hexecuted.registered)).tail
      (.spawnHeld (j := .notify s.tasks.size onExit) trivial hheld)) rfl (.trackedSpawn hexecuted.currentTracker_lt rfl)
    have hsize : (s.executeWithCancel rt n env).2.2.tasks.size = s.tasks.size + 1 := Array.size_push _
    rw [hsize] at hcallback
    exact hcallback
  | @reset runs callbacks s _ ih =>
    have hr : r < (s.reset r).registries.size := Nat.lt_of_lt_of_eq ih.registered Array.size_modify.symm
    refine .blank (ih.attained.tail (.reset r)) hr ?_
    rw [(currentTracker_reset s r ih.registered).trans (if_pos rfl)]
    exact congrArg Tracker.running ((s.tracker_push (s.registries.modify r fun _ => s.trackers.size) _).trans
      (tracker_eq_default (Nat.le_refl _)))
  | polled _ ht hn ih => exact ih.poll ht hn
  | beside _ hm ih => exact ih.beside hm

end System

/-- What is in flight on a registry: the runs that have been started on it since the last reset and have not settled, and the
callbacks for exits that have not returned. So the number is that of the runs exactly when no callback is outstanding. -/
theorem in_flight_counts {r : RegistryId} {runs callbacks : Finset TaskId} {s : System} (h : s.Course r runs callbacks) :
    s.inFlight r = (s.unended runs).card + (s.unended callbacks).card ∧
      (s.inFlight r = (s.unended runs).card ↔ s.unended callbacks = ∅) := by
  have hcounts := h.invariant.counts
  refine ⟨hcounts, ?_⟩
  rw [hcounts, Nat.add_eq_left, Finset.card_eq_zero]

/-- The runtime of the runs below. -/
def smallRuntime : Runtime := { interval := 9, registry := 0 }

/-- A run has been executed. -/
def executedRun : System := (({} : System).newRegistry.2.execute smallRuntime (.succeed .unit) (.plain .null) none).2

/-- The run has settled, the registry has been reset, and a run has been forked with a callback. -/
def forkedRun : System :=
  (((executedRun.poll 9 0).reset 0).forkWith smallRuntime (.succeed .unit) (.plain .null) fun _ => return ()).2

/-- The history of the registry: a run has settled before the reset, and the run and the callback after it are counted. -/
theorem forkedRun_course : forkedRun.Course 0 {1} {2} := by
  have hruntime : smallRuntime.registry = 0 := rfl
  have hexecuted := (System.Course.created (s := {}) .refl rfl).executed hruntime (.succeed .unit) (.plain .null) none
  have hended : ∀ k, executedRun.poll (9 + k) 0 = executedRun.poll 9 0 := System.poll_add fun _ hj => by
    obtain rfl := Option.some.inj hj
    decide
  have hsettled := hexecuted.polled (by decide) hended
  exact hsettled.reset.forkedWith hruntime (.succeed .unit) (.plain .null) fun _ => return ()

/-- The run is polled, and then the callback. -/
theorem in_flight_counts_forkedRun :
    (forkedRun.poll 9 1).Course 0 {1} {2} ∧
      ((forkedRun.poll 9 1).inFlight 0 = ((forkedRun.poll 9 1).unended {1}).card + ((forkedRun.poll 9 1).unended {2}).card ∧
        ((forkedRun.poll 9 1).inFlight 0 = ((forkedRun.poll 9 1).unended {1}).card ↔ (forkedRun.poll 9 1).unended {2} = ∅)) := by
  have hended : ∀ k, forkedRun.poll (9 + k) 1 = forkedRun.poll 9 1 := System.poll_add fun _ hj => by
    obtain rfl := Option.some.inj hj
    decide
  have hpolled := forkedRun_course.polled (by decide) hended
  have hcalled : {1} ∪ forkedRun.called 0 1 = {1} := Finset.union_empty _
  rw [hcalled] at hpolled
  exact ⟨hpolled, in_flight_counts hpolled⟩

/-- One run has been started since the reset and has not settled, and two are in flight. -/
theorem forked_twice : forkedRun.Course 0 {1} {2} ∧ (forkedRun.unended {1}).card = 1 ∧ forkedRun.inFlight 0 = 2 :=
  ⟨forkedRun_course, rfl, rfl⟩

end Interruptible
