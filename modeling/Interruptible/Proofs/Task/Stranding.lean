import Interruptible.Proofs.Task.Draining

/-!
# Drains that are left behind

All drains of a tracker share the bit that closes it. A drain that has been called out of the line opens the tracker when it is
polled, under whoever has joined the line meanwhile, and a tracker that becomes empty while it is open calls nobody. So with
nothing in flight a drain is blocked if and only if this has happened to it, and no drain has begun since
(`drain_stranded_iff`). All others are ready, and return when they are polled.
-/

namespace Interruptible

namespace System

variable {s s' s₁ s₂ s₃ : System} {k l : TrackerId} {op o : OperationId} {t u : TaskId} {j : Job} {task : Task} {a : Action Unit}

/-! ## Trackers that are neither closed nor opened -/

/-- A tracker is neither closed nor opened, and if it is open nobody is called who waits for it. -/
structure Steady (k : TrackerId) (op : OperationId) (s s' : System) : Prop where
  closed : (s'.tracker k).closed = (s.tracker k).closed
  line : (s.tracker k).closed = false → s'.world.line k op = s.world.line k op

namespace Steady

theorem trans (h : Steady k op s₁ s₂) (h' : Steady k op s₂ s₃) : Steady k op s₁ s₃ where
  closed := h'.closed.trans h.closed
  line hopen := (h'.line (h.closed.trans hopen)).trans (h.line hopen)

/-- The tracker is as it was, and so are the lines. -/
theorem of_same (hk : s'.tracker k = s.tracker k) (hline : s'.world.line k op = s.world.line k op) : Steady k op s s' :=
  ⟨congrArg Tracker.closed hk, fun _ => hline⟩

theorem refl (s : System) : Steady k op s s := of_same rfl rfl

/-- What goes on aside in the world calls nobody who waits for the tracker. -/
theorem aside {X : OperationId → Prop} {w : World} (hw : s.world.Aside X w) (hi : s.world.Issued (.operation op)) (hop : ¬ X op) :
    Steady k op s { s with world := w } :=
  of_same rfl (hw.line k op hi hop)

/-- A tracker that counts a task no longer is announced only if it is closed. -/
theorem untrack (s : System) (l : TrackerId) : Steady k op s (s.untrack l) := by
  have hclosed : ((s.modifyTracker l fun x => { x with running := x.running - 1 }).tracker k).closed = (s.tracker k).closed := by
    rw [tracker_modifyTracker]
    split <;> rfl
  unfold System.untrack
  dsimp only
  split
  · rename_i h
    refine ⟨hclosed, fun hopen => World.line_emit_of_ne _ (fun heq => ?_) op⟩
    obtain rfl := Signal.tracker.inj heq
    have hshut := (Bool.and_eq_true_iff.mp h).1
    rw [hclosed, hopen] at hshut
    nomatch hshut
  · exact ⟨hclosed, fun _ => rfl⟩

/-- Closing another tracker calls nobody who waits for this one. -/
theorem close_of_ne (hl : l ≠ k) : Steady k op s (s.close l) := by
  have hsame : (s.modifyTracker l fun x => { x with closed := true }).tracker k = s.tracker k := by
    rw [tracker_modifyTracker, if_neg fun h => hl h.1]
  unfold System.close
  dsimp only
  split
  · exact of_same hsame (World.line_emit_of_ne _ (fun heq => hl (Signal.tracker.inj heq)) op)
  · exact of_same hsame rfl

/-- Opening another tracker leaves this one as it is. -/
theorem reopen_of_ne (hl : l ≠ k) : Steady k op s (s.reopen l) :=
  of_same ((s.tracker_modifyTracker l k _).trans (if_neg fun h => hl h.1)) rfl

/-- Counting a run neither closes nor opens a tracker. -/
theorem track (s : System) (r : RegistryId) : Steady k op s (s.track r).2 := by
  refine ⟨?_, fun _ => rfl⟩
  have hsame : (s.track r).2.tracker k = _ := s.tracker_modifyTracker _ k _
  rw [hsame]
  split <;> rfl

/-- Adding a task neither closes nor opens a tracker. -/
theorem spawn (s : System) (j : Job) (c : Option TrackerId) : Steady k op s (s.spawn j c).2 :=
  of_same rfl (World.line_eq (World.waiters_wake _ _) k op)

/-- Launching a run neither closes nor opens a tracker. -/
theorem launch (r : Runtime) (n : Node) (env : Environment) (token : TokenId) : Steady k op s (s.launch r n env token).2 :=
  (track s r.registry).trans (spawn _ _ _)

/-- A task ends. -/
theorem finish (ht : s.tasks[t]? = some task) (hop : task.op ≠ op) (x : Ending) : Steady k op s (s.finish t x) := by
  have hforgot : Steady k op s (s.onWorld (·.forget task.op)) := of_same rfl (World.line_forget_of_ne _ hop k)
  have hended {v : System} (hv : Steady k op s v) : Steady k op s ((v.setJob t (.ended x)).onWorld (·.emit (.task t))) :=
    hv.trans (of_same rfl (World.line_emit_of_ne _ Signal.noConfusion op))
  unfold System.finish
  rw [ht]
  dsimp only
  split
  · exact hended (hforgot.trans (untrack _ _))
  · exact hended hforgot

end Steady

/-- The poll of a task neither closes nor opens a tracker, unless it is a drain that begins or ceases to wait for it. -/
theorem Does.steady {c : Option TrackerId} (h : s.Does t op j s') (ht : s.tasks[t]? = some { job := j, op := op, tracker := c })
    (hi : s.world.Issued (.operation o)) (ho : ¬ j.Owns op o) (hfirst : ∀ r a, j = .drain r a → s.currentTracker r ≠ k)
    (hlater : ∀ a, j ≠ .draining k a) : Steady k o s s' := by
  have hne : op ≠ o := fun heq => ho (.inl heq.symm)
  have closed {w : World} (l : TrackerId) : ({ s with world := w }.close l).tasks[t]? = some { job := j, op := op, tracker := c } :=
    (getElem?_close { s with world := w } l t).trans ht
  have finished {v : System} (hv : v.tasks[t]? = some { job := j, op := op, tracker := c }) (x : Ending) :
      Steady k o v (v.finish t x) := .finish hv hne x
  cases h with
  | lasts _ hw => exact .aside hw hi ho
  | goesOn _ hw => exact (Steady.aside hw hi ho).trans (.of_same rfl rfl)
  | @ends w _ hw x => exact (Steady.aside hw hi ho).trans (finished (by exact ht) x)
  | @launches w r n env _ _ hw token =>
    have hlaunched : Steady k o { s with world := w } (System.launch { s with world := w } r n env token).2 := .launch r n env token
    exact ((Steady.aside hw hi ho).trans hlaunched).trans (.of_same rfl (World.line_park_of_ne _ _ (.inr hne)))
  | @linesUp w r a hj hw _ =>
    have hclosed : Steady k o { s with world := w } (System.close { s with world := w } (s.currentTracker r)) :=
      .close_of_ne (hfirst r a hj)
    exact ((Steady.aside hw hi id).trans hclosed).trans (.of_same rfl (World.line_park_of_ne _ _ (.inr hne)))
  | @passesAtOnce w v r a hj hw _ hv x =>
    have hclosed : Steady k o { s with world := w } (System.close { s with world := w } (s.currentTracker r)) :=
      .close_of_ne (hfirst r a hj)
    have hopened := hclosed.trans (.reopen_of_ne (hfirst r a hj))
    refine ((Steady.aside hw hi id).trans hopened).trans ((Steady.aside (w := v) ?_ ?_ ho).trans (finished ?_ x))
    · exact hv
    · exact (close_acts _ _).issued (hw.issued o hi)
    · exact closed (s.currentTracker r)
  | stays => exact .refl s
  | @passes w l a hj _ hw x =>
    have hopened : Steady k o s (s.reopen l) := .reopen_of_ne fun heq => hlater a (heq ▸ hj)
    refine hopened.trans ((Steady.aside (w := w) ?_ ?_ ho).trans (finished ?_ x))
    · exact hw
    · exact hi
    · exact ht

/-- The poll of a drain that begins or ceases to wait for a tracker. -/
structure PollsDrain (k : TrackerId) (s s' : System) (u : TaskId) (other : Task) : Prop where
  ready : u ∈ s.world.ready
  poll : ∃ turns, (∀ n, s.poll (turns + n) u = s.poll turns u) ∧ s' = s.poll turns u
  task : s.tasks[u]? = some other
  drains : (∃ r a, other.job = .drain r a ∧ s.currentTracker r = k) ∨ ∃ a, other.job = .draining k a

/-- A move neither closes nor opens a tracker, unless it is the poll of a drain that begins or ceases to wait for it. -/
theorem Move.steady (h : Move s s') (hs : s.Attained) (ht : s.tasks[t]? = some task) (hj : task.job = .draining k a) :
    Steady k task.op s s' ∨ ∃ u other, PollsDrain k s s' u other := by
  have hlined := hs.lined
  have hissued := hlined.issued t task ht
  cases h with
  | @poll u turns hu hn =>
    refine Classical.or_iff_not_imp_right.mpr fun hnone => ?_
    cases hu' : s.tasks[u]? with
    | none =>
      rw [poll_none hu']
      exact .of_same rfl rfl
    | some other =>
      obtain ⟨v, ready, hdoes, hpoll⟩ := hs.polled hu' hn
      have hother : ¬ ((∃ r a, other.job = .drain r a ∧ s.currentTracker r = k) ∨ ∃ a, other.job = .draining k a) := fun h =>
        hnone ⟨u, other, hu, ⟨turns, hn, rfl⟩, hu', h⟩
      have howns : ¬ other.job.Owns other.op task.op := by
        rintro (hop | hop)
        · obtain rfl := hlined.own u t other task hu' ht hop.symm
          obtain rfl := Option.some.inj (hu'.symm.trans ht)
          exact hother (.inr ⟨a, hj⟩)
        · exact hlined.apart t u task other.job ht (s.job?_eq hu') hop
      have hsteady : Steady k task.op (s.onWorld (·.serving u)) v :=
        hdoes.steady hu' hissued howns (fun r a hj hk => hother (.inl ⟨r, a, hj, hk⟩)) fun a hj => hother (.inr ⟨a, hj⟩)
      rw [hpoll]
      exact ⟨hsteady.closed, hsteady.line⟩
  | host h => exact .inl (.aside (h.aside fun _ => False) hissued id)
  | launch _ n env token => exact .inl (.launch _ n env token)
  | spawn _ => exact .inl (.spawn s _ _)
  | hold _ => exact .inl (.track s _)
  | spawnHeld _ _ => exact .inl (.spawn s _ _)
  | dropHeld _ => exact .inl (.untrack s _)
  | newRegistry => exact .inl (.of_same (s.tracker_push _ k) rfl)
  | reset r => exact .inl (.of_same (s.tracker_push (s.registries.modify r fun _ => s.trackers.size) k) rfl)

/-- An empty tracker that has not been closed is announced when it is. -/
theorem line_close (hopen : (s.tracker k).closed = false) (hempty : (s.tracker k).running = 0) (op : OperationId) :
    (s.close k).world.line k op = [] := by
  unfold close
  dsimp only
  rw [hopen, hempty]
  exact World.line_emit_self _ _ _

/-- A drain that is called closes the tracker of the day, or has everybody called who waits for it. -/
theorem Does.closes {r : RegistryId} {c : Option TrackerId} (h : s.Does t op (.drain r a) s')
    (ht : s.tasks[t]? = some { job := .drain r a, op := op, tracker := c }) (hr : s.currentTracker r < s.trackers.size)
    (hi : s.world.Issued (.operation o)) (ho : op ≠ o) (hshut : (s.tracker (s.currentTracker r)).isClosedAndEmpty = false) :
    (s'.tracker (s.currentTracker r)).closed = true ∨ s'.world.line (s.currentTracker r) o = [] := by
  obtain ⟨w, hw, ⟨-, rfl⟩ | ⟨hpasses, v, x, hv, rfl⟩⟩ := h.of_drain
  · exact .inl (closed_close (s := { s with world := w }) hr)
  · have hempty : (s.tracker (s.currentTracker r)).running = 0 :=
      (running_close { s with world := w } _ _).symm.trans (eq_of_beq (Bool.and_eq_true_iff.mp hpasses).2)
    have hopen : (s.tracker (s.currentTracker r)).closed = false := by
      simpa [Tracker.isClosedAndEmpty, hempty] using hshut
    have hcalled : (System.close { s with world := w } (s.currentTracker r)).world.line (s.currentTracker r) o = [] :=
      line_close (s := { s with world := w }) hopen hempty o
    have hrest : Slackens o (System.close { s with world := w } (s.currentTracker r))
        ({ (System.close { s with world := w } (s.currentTracker r)).reopen (s.currentTracker r) with world := v }.finish t x) := by
      refine (Slackens.reopen _ _ o).trans ((Slackens.aside (X := (Job.drain r a).Owns op) (w := v) ?_ ?_ ?_).trans
        (.finish _ t x fun task htask => ?_))
      · exact hv
      · exact (close_acts _ _).issued (hw.issued o hi)
      · exact fun hop => hop.elim (fun h => ho h.symm) List.not_mem_nil
      · obtain rfl := Option.some.inj (((getElem?_close { s with world := w } (s.currentTracker r) t).trans ht).symm.trans htask)
        exact ho
    refine .inr ?_
    rcases hrest.line (s.currentTracker r) with ⟨hsame, -⟩ | ⟨hnone, -⟩
    · exact hsame.trans hcalled
    · exact hnone

/-- A tracker that has been opened is not closed, whether it was there or not. -/
theorem closed_reopen (s : System) (k : TrackerId) : ((s.reopen k).tracker k).closed = false := by
  rw [reopen, tracker_modifyTracker]
  split
  · rfl
  · rename_i h
    rw [tracker, Array.getElem?_eq_none (Nat.le_of_not_lt fun hlt => h ⟨rfl, hlt⟩)]
    rfl

/-- A drain that is polled again stays in line, or it opens its tracker and returns. -/
theorem Does.opens {c : Option TrackerId} (h : s.Does t op (.draining k a) s')
    (ht : s.tasks[t]? = some { job := .draining k a, op := op, tracker := c }) (hi : s.world.Issued (.operation o)) (ho : op ≠ o) :
    s' = s ∨ (∃ x, s'.ending? t = some x) ∧ (s'.tracker k).closed = false ∧ s'.world.line k o = s.world.line k o := by
  refine h.of_draining.imp And.right ?_
  rintro ⟨-, w, x, hw, rfl⟩
  have hrest : Steady k o (s.reopen k) ({ s.reopen k with world := w }.finish t x) := by
    refine (Steady.aside (X := (Job.draining k a).Owns op) (w := w) ?_ ?_ ?_).trans ?_
    · exact hw
    · exact hi
    · exact fun hop => hop.elim (fun h => ho h.symm) nofun
    · exact Steady.finish (s := { s.reopen k with world := w }) ht ho x
  have hended := job?_finish (s := { s.reopen k with world := w }) ht x
  exact ⟨⟨x, ending?_eq_some.mpr hended⟩, hrest.closed.trans (s.closed_reopen k), hrest.line (s.closed_reopen k)⟩

/-! ## Moves as seen by a drain that stands in line -/

/-- A drain of the tracker begins: it is polled for the first time. -/
def DrainBegins (k : TrackerId) (s s' : System) : Prop :=
  ∃ u r a, s.job? u = some (.drain r a) ∧ s.currentTracker r = k ∧ s'.job? u ≠ some (.drain r a)

/-- A drain that was called out of the line returns. -/
structure DrainReturns (k : TrackerId) (s s' : System) (u : TaskId) : Prop where
  ready : u ∈ s.world.ready
  poll : ∃ turns, s' = s.poll turns u
  waited : ∃ a, s.job? u = some (.draining k a)
  returned : ∃ x, s'.ending? u = some x

/-- When another drain begins, it closes the tracker or has everybody called who waits for it. -/
theorem Move.begins (h : Move s s') (hs : s.Attained) (ht : s.tasks[t]? = some task) (hj : task.job = .draining k a)
    (hw : s.Waits k task.op t) (hb : DrainBegins k s s') :
    (s'.tracker k).closed = true ∨ s'.world.line k task.op = [] := by
  obtain ⟨u, r, b, hu, rfl, hchanged⟩ := hb
  have hlined := hs.lined
  obtain ⟨other, hother, hjob⟩ := Option.map_eq_some_iff.mp hu
  rcases h.elsewhere hs hother with ⟨turns, -, hn, rfl⟩ | ⟨hsame, -⟩
  · obtain ⟨v, ready, hdoes, hpoll⟩ := hs.polled hother hn
    have hplaced := hlined.jobs u other hother nofun
    have hne : other.op ≠ task.op := fun hop => by
      obtain rfl := hlined.own u t other task hother ht hop
      obtain rfl := Option.some.inj (hother.symm.trans ht)
      exact nomatch hj.symm.trans hjob
    obtain ⟨job, op, c⟩ := other
    obtain rfl : job = .drain r b := hjob
    rw [hpoll]
    exact hdoes.closes (s := s.onWorld (·.serving u)) hother (hlined.registries r hplaced.1) (hlined.issued t task ht) hne hw.shut
  · exact absurd (hjob ▸ s'.job?_eq hsame) hchanged

/-- A drain that returns opens its tracker, and calls nobody. -/
theorem DrainReturns.opens (h : DrainReturns k s s' u) (hs : s.Attained) (ht : s.tasks[t]? = some task) (hu : u ≠ t) :
    (s'.tracker k).closed = false ∧ s'.world.line k task.op = s.world.line k task.op := by
  obtain ⟨-, ⟨turns, rfl⟩, ⟨b, hjob⟩, x, hended⟩ := h
  have hlined := hs.lined
  obtain ⟨⟨job, op, c⟩, hother, rfl : job = .draining k b⟩ := Option.map_eq_some_iff.mp hjob
  obtain ⟨v, ready, hdoes, hpoll⟩ := hs.polled_quiet hother trivial turns
  have hne : op ≠ task.op := fun hop => hu (hlined.own u t _ task hother ht hop)
  rw [hpoll] at hended ⊢
  rcases hdoes.opens hother (hlined.issued t task ht) hne with rfl | ⟨-, hopen, hline⟩
  · exact nomatch (ending?_eq_some.mp hended).symm.trans hjob
  · exact ⟨hopen, hline⟩

/-- A move in which no drain of the tracker begins. -/
def Idles (k : TrackerId) (s s' : System) : Prop := Move s s' ∧ ¬ DrainBegins k s s'

/-- As long as no other drain begins, the tracker is neither closed nor opened, unless another drain returns. -/
theorem Idles.watched (h : Idles k s s') (hs : s.Attained) (ht : s.tasks[t]? = some task) (hj : task.job = .draining k a)
    (hw : s.Waits k task.op t) : Steady k task.op s s' ∨ ∃ u, u ≠ t ∧ DrainReturns k s s' u := by
  have hlined := hs.lined
  obtain ⟨hmove, hnone⟩ := h
  rcases hmove.steady hs ht hj with hsteady | ⟨u, other, hready, ⟨turns, hn, rfl⟩, hu, hdrains⟩
  · exact .inl hsteady
  · obtain ⟨v, ready, hdoes, hpoll⟩ := hs.polled hu hn
    rcases hdrains with ⟨r, b, hjob, rfl⟩ | ⟨b, hjob⟩
    · refine absurd ⟨u, r, b, hjob ▸ s.job?_eq hu, rfl, ?_⟩ hnone
      rcases first_poll hs hu hjob turns with ⟨-, hwaits, -⟩ | ⟨-, x, hended⟩
      · rw [hwaits]
        nofun
      · rw [ending?_eq_some.mp hended]
        nofun
    · rw [hjob] at hdoes
      rcases hdoes.of_draining with ⟨-, rfl⟩ | ⟨-, w, x, -, rfl⟩
      · rw [hpoll]
        exact .inl (.of_same rfl rfl)
      · have hended := job?_finish (s := { (s.onWorld (·.serving u)).reopen k with world := w }) hu x
        refine .inr ⟨u, ?_, hready, ⟨turns, rfl⟩, ⟨b, hjob ▸ s.job?_eq hu⟩, x, ?_⟩
        · rintro rfl
          obtain ⟨htask, -⟩ := hmove.waits hs ht hj hw
          rw [hpoll] at htask
          exact nomatch (hj ▸ job?_eq htask).symm.trans hended
        · rw [hpoll]
          exact ending?_eq_some.mpr hended

/-! ## Blocked drains -/

/-- A drain is blocked: it waits for its tracker, and however it is polled it goes on waiting. -/
def Blocked (s : System) (k : TrackerId) (t : TaskId) : Prop :=
  ∃ a, s.job? t = some (.draining k a) ∧ ∀ turns, (s.poll turns t).job? t = some (.draining k a)

/-- A drain that has been called out of the line returns when it is polled. -/
theorem ended_of_called (hs : s.Attained) (ht : s.tasks[t]? = some task) (hj : task.job = .draining k a)
    (hline : s.world.line k task.op = []) (turns : Nat) : ∃ x, (s.poll turns t).ending? t = some x := by
  obtain ⟨v, ready, hdoes, hpoll⟩ := hs.polled_quiet ht (hj ▸ trivial) turns
  rw [hj] at hdoes
  rcases hdoes.of_draining with ⟨⟨hwaits, -⟩, -⟩ | ⟨-, w, x, -, rfl⟩
  · exact absurd hline hwaits
  · refine ⟨x, ?_⟩
    rw [hpoll]
    exact ending?_eq_some.mpr (job?_finish (s := { (s.onWorld (·.serving t)).reopen k with world := w }) ht x)

/-- A drain is blocked if and only if it stands in line before a tracker that is not closed and empty. -/
theorem blocked_iff (hs : s.Attained) (ht : s.tasks[t]? = some task) (hj : task.job = .draining k a) :
    s.Blocked k t ↔ s.Waits k task.op t := by
  have hjob : s.job? t = some (.draining k a) := hj ▸ s.job?_eq ht
  have hplaced := hs.lined.jobs t task ht nofun
  rw [hj] at hplaced
  constructor
  · rintro ⟨b, -, hstays⟩
    refine hplaced.2.resolve_right fun hcalled => ?_
    obtain ⟨x, hx⟩ := ended_of_called hs ht hj hcalled.1 0
    exact nomatch (ending?_eq_some.mp hx).symm.trans (hstays 0)
  · refine fun hw => ⟨a, hjob, fun turns => ?_⟩
    obtain ⟨v, ready, hdoes, hpoll⟩ := hs.polled_quiet ht (hj ▸ trivial) turns
    rw [hj] at hdoes
    obtain rfl := hdoes.of_waits ⟨hw.line, hw.shut⟩
    rw [hpoll]
    exact hjob

/-- A drain that is blocked stands in line before its tracker. -/
theorem Blocked.waits (h : s.Blocked k t) (hs : s.Attained) :
    ∃ task a, s.tasks[t]? = some task ∧ task.job = .draining k a ∧ s.Waits k task.op t := by
  obtain ⟨a, hjob, -⟩ := id h
  obtain ⟨task, ht, hj⟩ := Option.map_eq_some_iff.mp hjob
  exact ⟨task, a, ht, hj, (blocked_iff hs ht hj).mp h⟩

/-- What is awake between polls is ready. -/
theorem Attained.ready (hs : s.Attained) (h : s.world.Awake t) : t ∈ s.world.ready := by
  refine h.resolve_right ?_
  rintro ⟨hcurrent, -⟩
  exact nomatch hs.sound.polled.symm.trans hcurrent

/-- Once its tracker is empty, a drain that is not blocked is ready, and returns when it is polled. -/
theorem Attained.returns (hs : s.Attained)
    (ht : (∃ a, s.job? t = some (.draining k a)) ∨ ∃ r a, s.job? t = some (.drain r a) ∧ s.currentTracker r = k)
    (hempty : (s.tracker k).running = 0) (hfree : ¬ s.Blocked k t) :
    t ∈ s.world.ready ∧ ∀ turns, ∃ x, (s.poll turns t).ending? t = some x := by
  rcases ht with ⟨a, hjob⟩ | ⟨r, a, hjob, rfl⟩
  · obtain ⟨task, ht, hj⟩ := Option.map_eq_some_iff.mp hjob
    have hplaced := hs.lined.jobs t task ht nofun
    rw [hj] at hplaced
    obtain ⟨hline, hawake⟩ := hplaced.2.resolve_left fun hw => hfree ((blocked_iff hs ht hj).mpr hw)
    exact ⟨hs.ready hawake, ended_of_called hs ht hj hline⟩
  · obtain ⟨task, ht, hj⟩ := Option.map_eq_some_iff.mp hjob
    have hplaced := hs.lined.jobs t task ht nofun
    rw [hj] at hplaced
    refine ⟨hs.ready hplaced.2.2, fun turns => ?_⟩
    rcases first_poll hs ht hj turns with ⟨hrunning, -⟩ | ⟨-, hended⟩
    · exact absurd hempty (Nat.ne_of_gt hrunning)
    · exact hended

/-! ## How a drain is left behind -/

/-- Another drain opens the tracker for which a drain waits that is blocked, while something is in flight. -/
structure Undercuts (k : TrackerId) (t : TaskId) (s s' : System) : Prop where
  move : Move s s'
  blocked : s.Blocked k t
  running : 0 < (s.tracker k).running
  returns : ∃ u, u ≠ t ∧ DrainReturns k s s' u

/-- A drain has been left behind: another drain of its tracker has returned while it was blocked and something was in flight,
and no drain of the tracker has begun since. -/
def LeftBehind (s : System) (k : TrackerId) (t : TaskId) : Prop :=
  ∃ u v, u.Attained ∧ Undercuts k t u v ∧ Relation.ReflTransGen (Idles k) v s

/-- A drain that has been left behind stays so, until another drain of the tracker begins. -/
theorem LeftBehind.goesOn (h : s.LeftBehind k t) (hm : Idles k s s') : s'.LeftBehind k t := by
  obtain ⟨u, v, hu, hundercuts, hidle⟩ := h
  exact ⟨u, v, hu, hundercuts, hidle.tail hm⟩

/-- A drain stands in line before a tracker that is open. -/
structure WaitsInVain (s : System) (k : TrackerId) (t : TaskId) : Prop where
  waits : ∃ task a, s.tasks[t]? = some task ∧ task.job = .draining k a ∧ s.world.line k task.op = [t]
  opened : (s.tracker k).closed = false

/-- A tracker that is open is not closed and empty. -/
theorem Waits.of_open (hline : s.world.line k op = [t]) (hopen : (s.tracker k).closed = false) : s.Waits k op t :=
  ⟨hline, by rw [Tracker.isClosedAndEmpty, hopen, Bool.false_and]⟩

/-- A drain that has been undercut stands in line before an open tracker. -/
theorem Undercuts.waitsInVain (h : Undercuts k t s s') (hs : s.Attained) : s'.WaitsInVain k t := by
  obtain ⟨task, a, ht, hj, hw⟩ := h.blocked.waits hs
  obtain ⟨u, hu, hreturns⟩ := h.returns
  obtain ⟨hopen, hline⟩ := hreturns.opens hs ht hu
  obtain ⟨ht', -⟩ := h.move.waits hs ht hj hw
  exact ⟨⟨task, a, ht', hj, hline.trans hw.line⟩, hopen⟩

/-- Nothing but the beginning of another drain puts an end to it. -/
theorem Idles.waitsInVain (h : Idles k s s') (hs : s.Attained) (hv : s.WaitsInVain k t) : s'.WaitsInVain k t := by
  obtain ⟨⟨task, a, ht, hj, hline⟩, hopen⟩ := hv
  have hw : s.Waits k task.op t := .of_open hline hopen
  obtain ⟨ht', -⟩ := h.1.waits hs ht hj hw
  rcases h.watched hs ht hj hw with hsteady | ⟨u, hu, hreturns⟩
  · exact ⟨⟨task, a, ht', hj, (hsteady.line hopen).trans hline⟩, hsteady.closed.trans hopen⟩
  · obtain ⟨hopen', hline'⟩ := hreturns.opens hs ht hu
    exact ⟨⟨task, a, ht', hj, hline'.trans hline⟩, hopen'⟩

/-- A drain that has been left behind is blocked. -/
theorem LeftBehind.blocked (h : s.LeftBehind k t) : s.Blocked k t := by
  obtain ⟨u, v, hu, hundercuts, hidle⟩ := h
  have hvain : s.Attained ∧ s.WaitsInVain k t := by
    induction hidle with
    | refl => exact ⟨hu.tail hundercuts.move, hundercuts.waitsInVain hu⟩
    | tail _ hm ih => exact ⟨ih.1.tail hm.1, hm.waitsInVain ih.1 ih.2⟩
  obtain ⟨hs, ⟨task, a, ht, hj, hline⟩, hopen⟩ := hvain
  exact (blocked_iff hs ht hj).mpr (.of_open hline hopen)

/-- What a task has been that stands in line after the poll of a task. -/
theorem Does.draining_of {c : Option TrackerId} (h : s.Does t op j s')
    (ht : s.tasks[t]? = some { job := j, op := op, tracker := c }) (hj : s'.job? t = some (.draining k a)) :
    j = .draining k a ∨ ∃ r, j = .drain r a ∧ s.currentTracker r = k := by
  have given {v : System} (hv : v.tasks[t]? = some { job := j, op := op, tracker := c }) {i : Job}
      (hi : (v.setJob t i).job? t = some (.draining k a)) : i = .draining k a := by
    rw [job?_setJob, if_pos rfl, job?_eq hv] at hi
    exact Option.some.inj hi
  have finished {v : System} (hv : v.tasks[t]? = some { job := j, op := op, tracker := c }) (x : Ending)
      (hi : (v.finish t x).job? t = some (.draining k a)) : False :=
    nomatch (job?_finish hv x).symm.trans hi
  have hsame : s.job? t = some (.draining k a) → j = .draining k a := fun h => Option.some.inj ((s.job?_eq ht).symm.trans h)
  cases h with
  | lasts => exact .inl (hsame hj)
  | @goesOn w i _ _ hi =>
    obtain rfl := given (v := { s with world := w }) ht hj
    exact hi.elim
  | @ends w _ _ x => exact (finished (v := { s with world := w }) ht x hj).elim
  | @launches w r n env _ _ _ token =>
    have hlaunched := getElem?_launch_of_some (s := { s with world := w }) ht r n env token
    exact nomatch given (v := (System.launch { s with world := w } r n env token).2.onWorld _) hlaunched hj
  | @linesUp w r b hdrain _ _ =>
    have hclosed := (getElem?_close { s with world := w } (s.currentTracker r) t).trans ht
    obtain ⟨rfl, rfl⟩ := Job.draining.inj (given (v := (System.close { s with world := w } _).onWorld _) hclosed hj)
    exact .inr ⟨r, hdrain, rfl⟩
  | @passesAtOnce w v r _ _ _ _ _ x =>
    have hclosed := (getElem?_close { s with world := w } (s.currentTracker r) t).trans ht
    exact (finished (v := { (System.close { s with world := w } _).reopen _ with world := v }) hclosed x hj).elim
  | stays => exact .inl (hsame hj)
  | @passes w l _ _ _ _ x => exact (finished (v := { s.reopen l with world := w }) ht x hj).elim

/-- A drain that stands in line after a move was there before, or it has just been polled for the first time. -/
theorem Move.draining (h : Move s s') (hs : s.Attained) (hj : s'.job? t = some (.draining k a)) :
    s.job? t = some (.draining k a) ∨
      ∃ r turns, s.job? t = some (.drain r a) ∧ s.currentTracker r = k ∧ s' = s.poll turns t := by
  have begun {i : Job} (hi : i.Begins s) (c : Option TrackerId) (hj : (s.spawn i c).2.job? t = some (.draining k a)) :
      s.job? t = some (.draining k a) := by
    refine (job?_spawn_cases hj).resolve_left ?_
    rintro ⟨-, rfl⟩
    exact hi.elim
  cases h with
  | @poll u turns hready hn =>
    cases hu : s.tasks[u]? with
    | none =>
      rw [poll_none hu] at hj
      exact .inl hj
    | some other =>
      obtain ⟨v, ready, hdoes, hpoll⟩ := hs.polled hu hn
      rw [hpoll] at hj
      by_cases hut : u = t
      · subst hut
        rcases hdoes.draining_of hu hj with hjob | ⟨r, hjob, hk⟩
        · exact .inl (hjob ▸ s.job?_eq hu)
        · exact .inr ⟨r, turns, hjob ▸ s.job?_eq hu, hk, rfl⟩
      · rcases hdoes.tasks (Ne.symm hut) with hsame | ⟨-, p, hlaunched⟩
        · exact .inl ((congrArg (Option.map Task.job) hsame).symm.trans hj)
        · exact nomatch hlaunched.symm.trans hj
  | host _ => exact .inl hj
  | launch _ n env token => exact .inl ((job?_spawn_cases hj).resolve_left nofun)
  | spawn hi => exact .inl (begun hi none hj)
  | hold _ => exact .inl hj
  | spawnHeld hi _ => exact .inl (begun hi _ hj)
  | @dropHeld l _ => exact .inl ((congrArg (fun tasks => tasks[t]?.map Task.job) (s.tasks_untrack l)).symm.trans hj)
  | newRegistry => exact .inl hj
  | reset _ => exact .inl hj

/-- A drain that has been polled does not become blocked later than by that. -/
theorem Move.blocked (h : Move s s') (hs : s.Attained) (hj : s.job? t = some (.draining k a)) (hb : s'.Blocked k t) :
    s.Blocked k t := by
  obtain ⟨task, ht, hjob⟩ := Option.map_eq_some_iff.mp hj
  obtain ⟨task', b, ht', hjob', hw'⟩ := hb.waits (hs.tail h)
  have hplaced := hs.lined.jobs t task ht nofun
  rw [hjob] at hplaced
  refine (blocked_iff hs ht hjob).mpr (hplaced.2.resolve_right ?_)
  rintro ⟨hcalled, -⟩
  rcases h.elsewhere hs ht with ⟨turns, -, -, rfl⟩ | ⟨hsame, hline⟩
  · obtain ⟨x, hended⟩ := ended_of_called hs ht hjob hcalled turns
    exact nomatch ((ending?_eq_some.mp hended).symm.trans (job?_eq ht')).trans (congrArg some hjob')
  · obtain rfl := Option.some.inj (hsame.symm.trans ht')
    rcases hline k with hline | ⟨hline, -⟩
    · exact nomatch hw'.line.symm.trans (hline.trans hcalled)
    · exact nomatch hw'.line.symm.trans hline

/-- A drain that is blocked waits for a tracker that is closed, or it has been left behind. -/
theorem Attained.closed_or_leftBehind (hs : s.Attained) (hb : s.Blocked k t) : (s.tracker k).closed = true ∨ s.LeftBehind k t := by
  induction hs with
  | refl =>
    obtain ⟨a, hj, -⟩ := hb
    nomatch hj
  | @tail s s' hs hm ih =>
    have hs : s.Attained := hs
    obtain ⟨task', a, ht', hj', hw'⟩ := hb.waits (hs.tail hm)
    have hjob' : s'.job? t = some (.draining k a) := hj' ▸ job?_eq ht'
    rcases hm.draining hs hjob' with hjob | ⟨r, turns, hjob, rfl, rfl⟩
    · have hblocked := hm.blocked hs hjob hb
      obtain ⟨task, b, ht, hj, hw⟩ := hblocked.waits hs
      by_cases hbegins : DrainBegins k s s'
      · refine (hm.begins hs ht hj hw hbegins).imp_right fun hcalled => ?_
        obtain ⟨hsame, -⟩ := hm.waits hs ht hj hw
        obtain rfl := Option.some.inj (hsame.symm.trans ht')
        exact nomatch hw'.line.symm.trans hcalled
      · have hidles : Idles k s s' := ⟨hm, hbegins⟩
        rcases ih hblocked with hclosed | hleft
        · rcases hidles.watched hs ht hj hw with hsteady | hreturns
          · exact .inl (hsteady.closed.trans hclosed)
          · exact .inr ⟨s, s', hs, ⟨hm, hblocked, Tracker.running_pos hclosed hw.shut, hreturns⟩, .refl⟩
        · exact .inr (hleft.goesOn hidles)
    · obtain ⟨task, ht, hj⟩ := Option.map_eq_some_iff.mp hjob
      rcases first_poll hs ht hj turns with ⟨-, -, -, hclosed⟩ | ⟨-, x, hended⟩
      · exact .inl hclosed
      · exact nomatch (ending?_eq_some.mp hended).symm.trans hjob'

end System

/-- With nothing in flight, a drain is blocked if and only if it has been left behind; any other is ready, and returns when it is
polled. -/
theorem drain_stranded_iff {s : System} {t : TaskId} {k : TrackerId} (hs : s.Attained)
    (ht : (∃ a, s.job? t = some (.draining k a)) ∨ ∃ r a, s.job? t = some (.drain r a) ∧ s.currentTracker r = k)
    (hempty : (s.tracker k).running = 0) :
    (s.Blocked k t ↔ s.LeftBehind k t) ∧
      (¬ s.Blocked k t → t ∈ s.world.ready ∧ ∀ turns, ∃ x, (s.poll turns t).ending? t = some x) := by
  refine ⟨⟨fun hb => (hs.closed_or_leftBehind hb).resolve_left fun hclosed => ?_, System.LeftBehind.blocked⟩, hs.returns ht hempty⟩
  obtain ⟨task, a, -, -, hw⟩ := hb.waits hs
  exact absurd hempty (Nat.ne_of_gt (Tracker.running_pos hclosed hw.shut))

/-- Two drains of a registry, of which one has been called because the first run has come to its end, and one stands in line
because another run has been started. -/
def overlappingDrains : System :=
  let s := (({} : System).newRegistry.2.launch { interval := 9, registry := 0 } (.succeed .unit) (.plain .null) 0).2
  let s := ((s.spawn (.drain 0 (return ())) none).2.poll 0 1).poll 9 0
  let s := (s.launch { interval := 9, registry := 0 } (.succeed .unit) (.plain .null) 0).2
  (s.spawn (.drain 0 (return ())) none).2.poll 0 3

/-- The first drain has returned, and then the other run has come to its end. -/
def strandedDrain : System := (overlappingDrains.poll 0 1).poll 9 2

/-- Two drains can come to overlap, by moves of a system. -/
theorem overlappingDrains_attained : overlappingDrains.Attained := by
  have hstarted : System.Attained _ := .single .newRegistry
  have hdrain : System.Attained _ := (hstarted.tail (.launch (r := { interval := 9, registry := 0 }) (by decide) (.succeed .unit)
    (.plain .null) 0)).tail (.spawn (j := .drain 0 (return ())) Nat.one_pos)
  have hcalled : System.Attained _ :=
    (hdrain.tail (.polled _ 1 0 (by decide) rfl trivial)).tail (.polled _ 0 9 (by decide) rfl (by decide))
  have hsecond : System.Attained _ := (hcalled.tail (.launch (r := { interval := 9, registry := 0 }) (by decide) (.succeed .unit)
    (.plain .null) 0)).tail (.spawn (j := .drain 0 (return ())) Nat.one_pos)
  exact hsecond.tail (.polled _ 3 0 (by decide) rfl trivial)

/-- The drain that is stranded arises by moves of a system. -/
theorem strandedDrain_attained : strandedDrain.Attained :=
  (overlappingDrains_attained.tail (.polled _ 1 0 (by decide) rfl trivial)).tail (.polled _ 2 9 (by decide) rfl (by decide))

/-- With nothing in flight and nothing ready, a drain is blocked. -/
theorem drain_stranded :
    strandedDrain.Attained ∧ (strandedDrain.tracker 0).running = 0 ∧ strandedDrain.world.ready = [] ∧ strandedDrain.Blocked 0 3 :=
  ⟨strandedDrain_attained, rfl, rfl, (System.blocked_iff strandedDrain_attained rfl rfl).mpr ⟨rfl, rfl⟩⟩

/-- A drain is blocked with nothing in flight, since another one has returned before its last run came to its end. -/
theorem drain_stranded_iff_strandedDrain :
    (strandedDrain.tracker 0).running = 0 ∧ strandedDrain.LeftBehind 0 3 ∧ strandedDrain.Blocked 0 3 := by
  have hreturns : System.DrainReturns 0 overlappingDrains (overlappingDrains.poll 0 1) 1 :=
    ⟨by decide, ⟨0, rfl⟩, ⟨_, rfl⟩, ⟨_, rfl⟩⟩
  have hblocked : overlappingDrains.Blocked 0 3 := (System.blocked_iff overlappingDrains_attained rfl rfl).mpr ⟨rfl, rfl⟩
  have hundercuts : System.Undercuts 0 3 overlappingDrains (overlappingDrains.poll 0 1) :=
    ⟨.polled _ 1 0 (by decide) rfl trivial, hblocked, by decide, 1, by decide, hreturns⟩
  have hidles : System.Idles 0 (overlappingDrains.poll 0 1) strandedDrain := by
    refine ⟨.polled _ 2 9 (by decide) rfl (by decide), ?_⟩
    rintro ⟨u, r, a, hu, -⟩
    match u with
    | 0 | 1 | 2 | 3 => exact nomatch show some _ = some (Job.drain r a) from hu
    | _ + 4 => exact nomatch show none = some (Job.drain r a) from hu
  have hleft : strandedDrain.LeftBehind 0 3 := ⟨_, _, overlappingDrains_attained, hundercuts, .single hidles⟩
  exact ⟨rfl, hleft, (drain_stranded_iff strandedDrain_attained (.inl ⟨_, rfl⟩) rfl).1.mpr hleft⟩

end Interruptible
