import Mathlib.Data.Set.Basic
import Interruptible.Proofs.Task.Places

/-!
# What drains wait for

A tracker counts no less than the tasks under way that it was told to track (`System.Attained.counts`). So when one is empty, all
of these tasks have ended, and a drain that has been called out of the line, or that need not join it, has nothing left to wait
for. Once a drain has returned, everything has ended that its tracker was told to track before the call, or after the call
while some of that was still under way (`drain_sound`).
-/

namespace Interruptible

/-- A tracker is not empty if it has been closed and is not closed and empty. -/
theorem Tracker.running_pos {x : Tracker} (hclosed : x.closed = true) (hshut : x.isClosedAndEmpty = false) : 0 < x.running :=
  Nat.pos_of_ne_zero (by simpa [isClosedAndEmpty, hclosed] using hshut)

namespace System

variable {s s' : System} {k : TrackerId} {t u : TaskId} {op : OperationId} {j : Job} {task : Task}

/-! ## Counting -/

/-- A task is counted by the tracker that was told to track it, as long as it has not ended. -/
theorem isCounted_eq_true : s.isCounted k t = true ↔
    ∃ task, s.tasks[t]? = some task ∧ task.tracker = some k ∧ task.job.hasEnded = false := by
  unfold isCounted
  cases s.tasks[t]? <;> simp

/-- A task that is counted exists. -/
theorem lt_of_isCounted (h : s.isCounted k t = true) : t < s.tasks.size := by
  obtain ⟨task, ht, -⟩ := isCounted_eq_true.mp h
  exact (Array.getElem?_eq_some_iff.mp ht).1

/-- A task that is counted is among those that the tracker counts. -/
theorem mem_counted (h : s.isCounted k t = true) : t ∈ (Finset.range s.tasks.size).filter fun t => s.isCounted k t :=
  Finset.mem_filter.mpr ⟨Finset.mem_range.mpr (lt_of_isCounted h), h⟩

/-- Where fewer tasks are counted, no more are counted. -/
theorem counted_le (h : ∀ t, s'.isCounted k t = true → s.isCounted k t = true) : s'.counted k ≤ s.counted k :=
  Finset.card_le_card fun t ht => mem_counted (h t (Finset.mem_filter.mp ht).2)

/-- One task is not counted any longer. -/
theorem counted_lt (h : ∀ u, s'.isCounted k u = true → s.isCounted k u = true) (ht : s.isCounted k t = true)
    (ht' : ¬ s'.isCounted k t = true) : s'.counted k < s.counted k :=
  Finset.card_lt_card ⟨fun u hu => mem_counted (h u (Finset.mem_filter.mp hu).2),
    fun hsub => ht' (Finset.mem_filter.mp (hsub (mem_counted ht))).2⟩

/-- One task more is counted. -/
theorem counted_le_succ (h : ∀ u, s'.isCounted k u = true → u = t ∨ s.isCounted k u = true) : s'.counted k ≤ s.counted k + 1 := by
  refine (Finset.card_le_card fun u hu => ?_).trans (Finset.card_insert_le t _)
  rcases h u (Finset.mem_filter.mp hu).2 with rfl | hu
  · exact Finset.mem_insert_self _ _
  · exact Finset.mem_insert_of_mem (mem_counted hu)

/-- When a tracker is empty that counts no less than the tasks under way, there are none. -/
theorem ended_of_empty (hs : s.counted k = 0) (ht : s.tasks[t]? = some task) (hk : task.tracker = some k) :
    task.job.hasEnded = true := by
  refine Bool.not_eq_false _ ▸ fun hu => ?_
  have hmem := mem_counted (isCounted_eq_true.mpr ⟨task, ht, hk, hu⟩)
  rw [Finset.card_eq_zero.mp hs] at hmem
  exact absurd hmem (Finset.notMem_empty t)

/-- A tracker that has not been made counts nothing. -/
theorem tracker_eq_default (h : s.trackers.size ≤ k) : s.tracker k = {} := by
  unfold tracker
  rw [Array.getElem?_eq_none h]
  rfl

/-- A tracker that counts a task no longer has one less running; other trackers have what they had. -/
theorem running_untrack (s : System) (k l : TrackerId) :
    ((s.untrack k).tracker l).running = (s.tracker l).running - if k = l then 1 else 0 := by
  have hsame : (s.untrack k).tracker l = (s.modifyTracker k fun x => { x with running := x.running - 1 }).tracker l := by
    unfold untrack
    dsimp only
    split <;> rfl
  rw [hsame, tracker_modifyTracker]
  by_cases hk : k = l
  · rw [if_pos hk]
    split
    · rfl
    · rename_i hl
      rw [tracker_eq_default (Nat.le_of_not_lt fun h => hl ⟨hk, h⟩)]
      rfl
  · rw [if_neg hk, if_neg fun h => hk h.1]
    rfl

/-- The tracker of the registry has one more running when a run is counted; other trackers have what they had. -/
theorem running_track {r : RegistryId} (hr : s.currentTracker r < s.trackers.size) (k : TrackerId) :
    ((s.track r).2.tracker k).running = (s.tracker k).running + if s.currentTracker r = k then 1 else 0 := by
  have hsame : (s.track r).2.tracker k = _ := s.tracker_modifyTracker _ k _
  rw [hsame]
  by_cases hk : s.currentTracker r = k
  · rw [if_pos ⟨hk, hk ▸ hr⟩, if_pos hk]
  · rw [if_neg fun h => hk h.1, if_neg hk]
    rfl

/-- A tracker that is closed has as many running as before. -/
theorem running_close (s : System) (k l : TrackerId) : ((s.close k).tracker l).running = (s.tracker l).running := by
  have hsame : (s.close k).tracker l = (s.modifyTracker k fun x => { x with closed := true }).tracker l := by
    unfold close
    dsimp only
    split <;> rfl
  rw [hsame, tracker_modifyTracker]
  split <;> rfl

/-- A tracker that has been closed is closed. -/
theorem closed_close (hk : k < s.trackers.size) : ((s.close k).tracker k).closed = true := by
  have hsame : (s.close k).tracker k = (s.modifyTracker k fun x => { x with closed := true }).tracker k := by
    unfold close
    dsimp only
    split <;> rfl
  rw [hsame, tracker_modifyTracker, if_pos ⟨rfl, hk⟩]

/-- A tracker that is opened again has as many running as before. -/
theorem running_reopen (s : System) (k l : TrackerId) : ((s.reopen k).tracker l).running = (s.tracker l).running := by
  rw [reopen, tracker_modifyTracker]
  split <;> rfl

/-- A task that ends is counted by its tracker no longer. -/
theorem running_finish (ht : s.tasks[t]? = some task) (x : Ending) (k : TrackerId) :
    ((s.finish t x).tracker k).running = (s.tracker k).running - if task.tracker = some k then 1 else 0 := by
  unfold finish
  rw [ht]
  dsimp only
  cases task.tracker with
  | none => rfl
  | some l =>
    have huntrack := (s.onWorld (·.forget task.op)).running_untrack l k
    simp only [Option.some.injEq]
    exact huntrack

/-! ## Trackers count the tasks that are under way -/

/-- Every tracker counts no less than the tasks under way that it was told to track. -/
def Counts (s : System) : Prop := ∀ k, s.counted k ≤ (s.tracker k).running

namespace Counts

/-- No task is counted that was not counted before, and no tracker counts less. -/
theorem onward (hs : s.Counts) (hc : ∀ k u, s'.isCounted k u = true → s.isCounted k u = true)
    (hr : ∀ k, (s.tracker k).running ≤ (s'.tracker k).running) : s'.Counts := fun k =>
  ((counted_le (hc k)).trans (hs k)).trans (hr k)

/-- The tasks stay as they are, and no tracker counts less. -/
theorem of_tasks (hs : s.Counts) (ht : s'.tasks = s.tasks) (hr : ∀ k, (s.tracker k).running ≤ (s'.tracker k).running) :
    s'.Counts :=
  hs.onward (fun k u h => by simpa only [isCounted, ht] using h) hr

/-- A task under way is given another job. -/
theorem setJob (hs : s.Counts) (ht : s.tasks[t]? = some task) (hu : task.job.hasEnded = false) (j : Job) :
    (s.setJob t j).Counts := by
  refine hs.onward (fun k u h => ?_) fun _ => Nat.le_refl _
  obtain ⟨task', htask', hk, hu'⟩ := isCounted_eq_true.mp h
  rw [getElem?_setJob] at htask'
  split at htask'
  · rename_i heq
    subst heq
    rw [ht] at htask'
    obtain rfl := Option.some.inj htask'
    exact isCounted_eq_true.mpr ⟨task, ht, hk, hu⟩
  · exact isCounted_eq_true.mpr ⟨task', htask', hk, hu'⟩

/-- A task under way ends. Whoever is counted afterwards is another task, and was counted before. -/
theorem finish (hs : s.Counts) (ht : s.tasks[t]? = some task) (hu : task.job.hasEnded = false) (x : Ending) :
    (s.finish t x).Counts := by
  intro k
  have hothers : ∀ u, (s.finish t x).isCounted k u = true → t ≠ u ∧ s.isCounted k u = true := by
    intro u h
    obtain ⟨task', htask', hk, hu'⟩ := isCounted_eq_true.mp h
    rw [getElem?_finish] at htask'
    split at htask'
    · obtain ⟨_, -, rfl⟩ := Option.map_eq_some_iff.mp htask'
      nomatch hu'
    · rename_i hne
      exact ⟨hne, isCounted_eq_true.mpr ⟨task', htask', hk, hu'⟩⟩
  have hrunning := running_finish ht x k
  by_cases hk : task.tracker = some k
  · have hless := counted_lt (fun u h => (hothers u h).2) (isCounted_eq_true.mpr ⟨task, ht, hk, hu⟩) fun h => (hothers t h).1 rfl
    have hbefore := hs k
    rw [if_pos hk] at hrunning
    omega
  · rw [if_neg hk] at hrunning
    exact ((counted_le fun u h => (hothers u h).2).trans (hs k)).trans (Nat.le_of_eq hrunning.symm)

/-- A task is added that a tracker counts, if any. -/
theorem spawn (hs : s.Counts) (j : Job) {c : Option TrackerId} (hc : ∀ k, c = some k → s.counted k < (s.tracker k).running) :
    (s.spawn j c).2.Counts := by
  intro k
  have hcases : ∀ u, (s.spawn j c).2.isCounted k u = true → u = s.tasks.size ∧ c = some k ∨ s.isCounted k u = true := by
    intro u h
    obtain ⟨task', htask', hk, hu'⟩ := isCounted_eq_true.mp h
    rcases spawn_cases htask' with ⟨rfl, rfl⟩ | htask'
    · exact .inl ⟨rfl, hk⟩
    · exact .inr (isCounted_eq_true.mpr ⟨task', htask', hk, hu'⟩)
  by_cases hk : c = some k
  · exact (counted_le_succ fun u h => (hcases u h).imp_left And.left).trans (hc k hk)
  · exact (counted_le fun u h => (hcases u h).resolve_left fun h => hk h.2).trans (hs k)

/-- A run that is about to be launched is counted before its task is there. -/
theorem track (hs : s.Counts) {r : RegistryId} (hr : s.currentTracker r < s.trackers.size) : (s.track r).2.Counts :=
  hs.of_tasks rfl fun k => by
    rw [running_track hr]
    exact Nat.le_add_right _ _

/-- A future that is held back is counted, and is not under way. -/
theorem holds (hs : s.Counts) {r : RegistryId} (hr : s.currentTracker r < s.trackers.size) :
    (s.track r).2.counted (s.currentTracker r) < ((s.track r).2.tracker (s.currentTracker r)).running := by
  rw [running_track hr, if_pos rfl]
  exact Nat.lt_succ_of_le (hs _)

/-- A run is started, and counted. -/
theorem launch (hs : s.Counts) {r : Runtime} (hr : s.currentTracker r.registry < s.trackers.size) (n : Node) (env : Environment)
    (token : TokenId) : (s.launch r n env token).2.Counts :=
  (hs.track hr).spawn _ fun _ hk => Option.some.inj hk ▸ hs.holds hr

end Counts

/-- The poll of a task keeps trackers from counting less than the tasks under way. -/
theorem Does.counts {c : Option TrackerId} (h : s.Does t op j s') (hs : s.Counts)
    (ht : s.tasks[t]? = some { job := j, op := op, tracker := c })
    (hcall : ∀ r n env token, j = .call r n env token → s.currentTracker r.registry < s.trackers.size) : s'.Counts := by
  have closed {w : World} (k : TrackerId) :
      ({ s with world := w }.close k).Counts ∧
        ({ s with world := w }.close k).tasks[t]? = some { job := j, op := op, tracker := c } :=
    ⟨hs.of_tasks (tasks_close { s with world := w } k) fun l => Nat.le_of_eq (running_close { s with world := w } k l).symm,
      (getElem?_close { s with world := w } k t).trans ht⟩
  have opened {v : System} (hv : v.Counts) (w : World) (k : TrackerId) : Counts { v.reopen k with world := w } :=
    hv.of_tasks rfl fun l => Nat.le_of_eq (running_reopen v k l).symm
  cases h with
  | lasts _ _ => exact hs
  | @goesOn w _ hj _ => exact Counts.setJob (s := { s with world := w }) hs ht hj.unended _
  | @ends w hj _ x => exact Counts.finish (s := { s with world := w }) hs ht hj.unended x
  | @launches w r n env _ hj _ token =>
    have hlaunched := Counts.launch (s := { s with world := w }) hs (hcall _ _ _ _ hj) n env token
    have ht' := getElem?_launch_of_some (s := { s with world := w }) ht r n env token
    exact Counts.setJob (s := (System.launch { s with world := w } r n env token).2.onWorld _) hlaunched ht' (by rw [hj]; rfl) _
  | @linesUp w r _ hj _ _ =>
    obtain ⟨hclosed, ht'⟩ := closed (w := w) (s.currentTracker r)
    exact Counts.setJob (s := (System.close { s with world := w } (s.currentTracker r)).onWorld _) hclosed ht' (by rw [hj]; rfl) _
  | @passesAtOnce w v r _ hj _ _ _ x =>
    obtain ⟨hclosed, ht'⟩ := closed (w := w) (s.currentTracker r)
    exact (opened hclosed v (s.currentTracker r)).finish ht' (by rw [hj]; rfl) x
  | stays => exact hs
  | @passes w k _ hj _ _ x => exact (opened hs w k).finish ht (by rw [hj]; rfl) x

/-- Every move keeps the counts. A task that ends is taken from the counter of its tracker once. -/
theorem Move.counts (h : Move s s') (hs : s.Attained) (hc : s.Counts) : s'.Counts := by
  have hlined := hs.lined
  cases h with
  | @poll t turns _ hn =>
    cases ht : s.tasks[t]? with
    | none =>
      rw [poll_none ht]
      exact hc
    | some task =>
      obtain ⟨v, ready, hdoes, hpoll⟩ := hs.polled ht hn
      rw [hpoll]
      refine hdoes.counts hc ht fun r n env token hj => hlined.registries _ ?_
      have hplaced := hlined.jobs t task ht nofun
      rw [hj] at hplaced
      exact hplaced
  | host _ => exact hc
  | launch hr n env token => exact hc.launch (hlined.registries _ hr) n env token
  | spawn _ => exact hc.spawn _ nofun
  | hold hr => exact hc.track (hlined.registries _ hr)
  | spawnHeld _ hk => exact hc.spawn _ fun k h => Option.some.inj h ▸ hk
  | @dropHeld k hk =>
    intro l
    have hless := s.running_untrack k l
    have hcounted : (s.untrack k).counted l ≤ s.counted l :=
      counted_le fun u h => by simpa only [isCounted, tasks_untrack] using h
    by_cases hl : k = l
    · subst hl
      rw [if_pos rfl] at hless
      omega
    · rw [if_neg hl] at hless
      exact (hcounted.trans (hc l)).trans (Nat.le_of_eq hless.symm)
  | newRegistry => exact hc.of_tasks rfl fun k => Nat.le_of_eq (congrArg Tracker.running (s.tracker_push _ k).symm)
  | reset r =>
    let registries := s.registries.modify r fun _ => s.trackers.size
    exact hc.of_tasks rfl fun k => Nat.le_of_eq (congrArg Tracker.running (s.tracker_push registries k).symm)

/-- No tracker counts less than the tasks under way that it was told to track. -/
theorem Attained.counts (hs : s.Attained) : s.Counts := by
  induction hs with
  | refl => exact fun _ => Nat.le_refl _
  | tail hs h ih => exact h.counts hs ih

/-! ## What the host starts, it starts by moves -/

/-- Executing a run is a matter of moves. -/
theorem execute_moves {r : Runtime} (hr : r.registry < s.registries.size) (n : Node) (env : Environment)
    (token : Option TokenId) : Relation.ReflTransGen Move s (s.execute r n env token).2 := by
  cases token with
  | some token => exact .single (.launch hr n env token)
  | none => exact .tail (.single (.host .newToken)) (.launch (s := { s with world := s.world.newToken.2 }) hr n env _)

/-- Executing a run that can be cancelled is a matter of moves. -/
theorem executeWithCancel_moves {r : Runtime} (hr : r.registry < s.registries.size) (n : Node) (env : Environment) :
    Relation.ReflTransGen Move s (s.executeWithCancel r n env).2.2 :=
  .tail (.single (.host .newToken)) (.launch (s := { s with world := s.world.newToken.2 }) hr n env _)

/-- A run is started together with the callback for its exit: that one is held back until the run has been started. -/
theorem forkWith_moves (hs : s.Attained) {r : Runtime} (hr : r.registry < s.registries.size) (n : Node) (env : Environment)
    (onExit : Exit Value Payload → Action Unit) : Relation.ReflTransGen Move s (s.forkWith r n env onExit).2 := by
  have hlaunched := executeWithCancel_moves hr n env
  have hattained : (s.executeWithCancel r n env).2.2.Attained := hs.trans hlaunched
  have hheld := hattained.counts.holds (hattained.lined.registries r.registry hr)
  exact (hlaunched.tail (.hold hr)).tail (.spawnHeld (j := .notify _ onExit) trivial hheld)

/-! ## The course of a drain -/

/-- A tracker was told to track a task. -/
def Tracks (s : System) (k : TrackerId) (u : TaskId) : Prop := ∃ task, s.tasks[u]? = some task ∧ task.tracker = some k

/-- A drain is called when it is polled for the first time: it stands in line from then on, before a tracker that is closed, or
the tracker is empty and it returns at once. -/
theorem first_poll (hs : s.Attained) (ht : s.tasks[t]? = some task) {r : RegistryId} {a : Action Unit}
    (hj : task.job = .drain r a) (turns : Nat) :
    0 < (s.tracker (s.currentTracker r)).running ∧
        (s.poll turns t).job? t = some (.draining (s.currentTracker r) a) ∧ (s.poll turns t).Waits (s.currentTracker r) task.op t ∧
          ((s.poll turns t).tracker (s.currentTracker r)).closed = true ∨
      (s.tracker (s.currentTracker r)).running = 0 ∧ ∃ e, (s.poll turns t).ending? t = some e := by
  have hlined := hs.lined
  have hissued := hlined.issued t task ht
  have hplaced := hlined.jobs t task ht nofun
  obtain ⟨v, ready, hdoes, hpoll⟩ := hs.polled_quiet ht (hj ▸ trivial) turns
  rw [hpoll]
  rw [hj] at hdoes hplaced
  obtain ⟨hr, hempty, -⟩ := hplaced
  obtain ⟨w, hw, ⟨hshut, rfl⟩ | ⟨hpasses, v', x, -, rfl⟩⟩ := hdoes.of_drain
  · have htask := (getElem?_close { s with world := w } (s.currentTracker r) t).trans ht
    have hrunning := running_close { s with world := w } (s.currentTracker r) (s.currentTracker r)
    have hclosed := closed_close (s := { s with world := w }) (hlined.registries r hr)
    refine .inl ⟨?_, ?_, ⟨line_linesUp (s := s.onWorld (·.serving t)) rfl hissued hw (hempty (s.currentTracker r)), hshut⟩, hclosed⟩
    · exact Nat.lt_of_lt_of_le (Tracker.running_pos hclosed hshut) (Nat.le_of_eq hrunning)
    · refine (job?_setJob (System.onWorld (System.close { s with world := w } (s.currentTracker r)) _) t t _).trans ?_
      rw [if_pos rfl]
      exact congrArg (Option.map fun _ => _) (job?_eq htask)
  · have htask := (getElem?_close { s with world := w } (s.currentTracker r) t).trans ht
    refine .inr ⟨?_, x, ending?_eq_some.mpr ?_⟩
    · exact (running_close { s with world := w } _ _).symm.trans (eq_of_beq (Bool.and_eq_true_iff.mp hpasses).2)
    · exact job?_finish (s := { (System.close { s with world := w } (s.currentTracker r)).reopen (s.currentTracker r) with
        world := v' }) htask x

/-- The course of a drain from its call on, and the tasks that it covers: those that the tracker of the day was told to track
before the call, and those that it is told to track later, while one of the covered is under way. -/
inductive DrainCourse (t : TaskId) (k : TrackerId) : Set TaskId → System → Prop where
  | called {s : System} {r : RegistryId} {a : Action Unit} {turns : Nat} (hs : s.Attained) (hj : s.job? t = some (.drain r a))
    (hk : s.currentTracker r = k) (ht : t ∈ s.world.ready) (hn : ∀ n, s.poll (turns + n) t = s.poll turns t) :
    DrainCourse t k {u | s.Tracks k u} (s.poll turns t)
  | goesOn {covered : Set TaskId} {s s' : System} (h : DrainCourse t k covered s) (hm : Move s s') :
    DrainCourse t k (covered ∪ {u | s'.Tracks k u ∧ ¬ s.Tracks k u ∧ ∃ v ∈ covered, s.ending? v = none}) s'

/-- A tracker that was told to track a task was so whatever move follows. -/
theorem Move.tracks (h : Move s s') (hs : s.Attained) (hu : s.Tracks k u) : s'.Tracks k u := by
  obtain ⟨task, ht, hk⟩ := hu
  obtain ⟨j, ht', -⟩ := h.keeps hs ht
  exact ⟨_, ht', hk⟩

/-- What has ended has ended for good. -/
theorem Move.ended (h : Move s s') (hs : s.Attained) {x : Ending} (hu : s.ending? u = some x) : s'.ending? u = some x := by
  obtain ⟨task, ht, hjob⟩ := Option.map_eq_some_iff.mp (ending?_eq_some.mp hu)
  obtain ⟨j, ht', hj⟩ := h.keeps hs ht
  rw [ending?_eq_some, s'.job?_eq ht', hj (by rw [hjob]; rfl), hjob]

/-- All tasks that an empty tracker was told to track have ended. -/
theorem Attained.ended_of_empty (hs : s.Attained) (hempty : (s.tracker k).running = 0) (hu : s.Tracks k u) :
    ∃ x, s.ending? u = some x := by
  obtain ⟨task, ht, hk⟩ := hu
  have hended := System.ended_of_empty (Nat.le_zero.mp (hempty ▸ hs.counts k)) ht hk
  have hjob := s.job?_eq ht
  cases hj : task.job with
  | ended x => exact ⟨x, ending?_eq_some.mpr (hj ▸ hjob)⟩
  | _ =>
    rw [hj] at hended
    nomatch hended

/-- In the course of a drain, it stands in line, or all tasks that it covers have ended. -/
structure DrainCourse.Invariant (t : TaskId) (k : TrackerId) (covered : Set TaskId) (s : System) : Prop where
  attained : s.Attained
  tracked : ∀ u ∈ covered, s.Tracks k u
  waits : (∃ task a, s.tasks[t]? = some task ∧ task.job = .draining k a ∧ s.Waits k task.op t) ∨
    ∀ u ∈ covered, ∃ x, s.ending? u = some x

/-- The invariant holds throughout the course of a drain. The induction is on the course. -/
theorem DrainCourse.invariant {covered : Set TaskId} (h : DrainCourse t k covered s) : Invariant t k covered s := by
  induction h with
  | @called s r a turns hs hj hk ht hn =>
    have hmove : Move s (s.poll turns t) := .poll ht hn
    obtain ⟨task, htask, hjob⟩ := Option.map_eq_some_iff.mp hj
    refine ⟨hs.tail hmove, fun u hu => hmove.tracks hs hu, ?_⟩
    subst hk
    rcases first_poll hs htask hjob turns with ⟨-, hjob', hwaits, -⟩ | ⟨hempty, -⟩
    · obtain ⟨j, htask', -⟩ := hmove.keeps hs htask
      obtain rfl : j = _ := Option.some.inj ((job?_eq htask').symm.trans hjob')
      exact .inl ⟨_, a, htask', rfl, hwaits⟩
    · refine .inr fun u hu => ?_
      obtain ⟨x, hx⟩ := hs.ended_of_empty hempty hu
      exact ⟨x, hmove.ended hs hx⟩
  | @goesOn covered s s' _ hm ih =>
    have hs' : s'.Attained := ih.attained.tail hm
    have htracked : ∀ u ∈ covered ∪ {u | s'.Tracks k u ∧ ¬ s.Tracks k u ∧ ∃ v ∈ covered, s.ending? v = none}, s'.Tracks k u := by
      rintro u (hu | ⟨hu, -⟩)
      · exact hm.tracks ih.attained (ih.tracked u hu)
      · exact hu
    refine ⟨hs', htracked, ?_⟩
    rcases ih.waits with ⟨task, a, htask, hjob, hwaits⟩ | hended
    · obtain ⟨htask', hline | ⟨-, hempty⟩⟩ := hm.waits ih.attained htask hjob hwaits
      · have hplaced := hs'.lined.jobs t task htask' nofun
        rw [hjob] at hplaced
        refine .inl ⟨task, a, htask', hjob, hplaced.2.resolve_right fun hcalled => ?_⟩
        exact nomatch hline.symm.trans hcalled.1
      · exact .inr fun u hu => hs'.ended_of_empty hempty (htracked u hu)
    · refine .inr fun u hu => ?_
      rcases hu with hu | ⟨-, -, v, hv, hunended⟩
      · obtain ⟨x, hx⟩ := hended u hu
        exact ⟨x, hm.ended ih.attained hx⟩
      · obtain ⟨x, hx⟩ := hended v hv
        rw [hunended] at hx
        nomatch hx

end System

/-- When a drain has returned, all runs and callbacks have ended that its registry tracked at the time of the call, and all that
it came to track later, while one of these was under way; that the registry is reset or drained by others meanwhile changes
nothing. -/
theorem drain_sound {t : TaskId} {k : TrackerId} {covered : Set TaskId} {s : System} (h : s.DrainCourse t k covered)
    {x : Ending} (ht : s.ending? t = some x) : ∀ u ∈ covered, ∃ x, s.ending? u = some x := by
  rcases h.invariant.waits with ⟨task, a, htask, hjob, -⟩ | hended
  · rw [System.ending?_eq_some, s.job?_eq htask, hjob] at ht
    nomatch ht
  · exact hended

/-- A run with a callback, and a drain that has not been polled. -/
def watchedRun : System :=
  let s := ({} : System).newRegistry.2
  let s := (s.forkWith { interval := 9, registry := 0 } (.succeed .unit) (.plain .null) fun _ => return ()).2
  (s.spawn (.drain 0 (return ())) none).2

/-- The drain has been called, another run has been started, and the registry has been reset. -/
def resetRun : System :=
  ((watchedRun.poll 0 2).launch { interval := 9, registry := 0 } (.succeed .unit) (.plain .null) 0).2.reset 0

/-- All of them have come to their ends. -/
def drainedRun : System := (((resetRun.poll 9 0).poll 9 3).poll 0 1).poll 0 2

/-- The run with a callback and the drain arise by moves. -/
theorem watchedRun_attained : watchedRun.Attained := by
  have hstarted : System.Attained _ := .single .newRegistry
  have hforked := hstarted.trans (System.forkWith_moves (r := { interval := 9, registry := 0 }) hstarted Nat.one_pos
    (.succeed .unit) (.plain .null) fun _ => return ())
  exact hforked.tail (.spawn (j := .drain 0 (return ())) Nat.one_pos)

/-- The poll of a ready task is a move, if it comes to its end within the turns that it may take. -/
theorem System.Move.polled (s : System) (t : TaskId) (turns : Nat) (ht : t ∈ s.world.ready) {j : Job} (hj : s.job? t = some j)
    (hr : j.Rests turns (s.world.serving t)) : Move s (s.poll turns t) :=
  .poll ht (poll_add fun _ hi => Option.some.inj (hj.symm.trans hi) ▸ hr)

/-- The drain of the run with a callback covers both of these and the run that was started later, and returns when all of them
have ended. -/
theorem drain_sound_drainedRun :
    ∃ covered, drainedRun.DrainCourse 2 0 covered ∧ drainedRun.ending? 2 = some .finished ∧ {0, 1, 3} ⊆ covered ∧
      ∀ u ∈ covered, ∃ x, drainedRun.ending? u = some x := by
  have hcalled : System.DrainCourse 2 0 _ (watchedRun.poll 0 2) :=
    .called watchedRun_attained rfl rfl (by decide) (System.poll_add fun _ hj => by obtain rfl := Option.some.inj hj; trivial)
  have hreset : resetRun.DrainCourse 2 0 _ :=
    (hcalled.goesOn (.launch (r := { interval := 9, registry := 0 }) (by decide) (.succeed .unit) (.plain .null) 0)).goesOn
      (.reset 0)
  have hruns := (hreset.goesOn (.polled resetRun 0 9 (by decide) rfl (by decide))).goesOn
    (.polled (resetRun.poll 9 0) 3 9 (by decide) rfl (by decide))
  have hcourse : drainedRun.DrainCourse 2 0 _ := (hruns.goesOn (.polled _ 1 0 (by decide) rfl trivial)).goesOn
    (.polled _ 2 0 (by decide) rfl trivial)
  refine ⟨_, hcourse, rfl, ?_, drain_sound hcourse rfl⟩
  have hrun : 0 ∈ {u | watchedRun.Tracks 0 u} := ⟨_, rfl, rfl⟩
  have hlater : ¬ (watchedRun.poll 0 2).Tracks 0 3 := by
    rintro ⟨task, h, -⟩
    have h : none = some task := h
    nomatch h
  rintro u (rfl | rfl | rfl)
  · exact .inl (.inl (.inl (.inl (.inl (.inl hrun)))))
  · exact .inl (.inl (.inl (.inl (.inl (.inl ⟨_, rfl, rfl⟩)))))
  · exact .inl (.inl (.inl (.inl (.inl (.inr ⟨⟨_, rfl, rfl⟩, hlater, 0, hrun, rfl⟩)))))

end Interruptible
