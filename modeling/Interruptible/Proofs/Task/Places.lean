import Interruptible.Proofs.Task.Moves

/-!
# Places in line

Between polls (`System.Lined`), a drain that has not been polled is ready and waits for nothing; one that has been polled stands in
line before its tracker, in a place of its own, and the tracker is not closed and empty; or it has been called out of the line and is
ready. Every move keeps this (`System.Move.lined`). A place in line is left as it is, or else the tracker has become empty
(`System.Spares`, `System.Move.elsewhere`).
-/

namespace Interruptible

namespace System

variable {s s' s₁ s₂ s₃ : System} {k : TrackerId} {op : OperationId} {t : TaskId} {j : Job} {e : Option TaskId}

/-- The places of an operation are kept, before trackers that are still not closed and empty, or their holders have been called
because the tracker is empty. -/
structure Spares (op : OperationId) (s s' : System) : Prop where
  registries : s.registries.size ≤ s'.registries.size
  trackers : s.trackers.size ≤ s'.trackers.size
  awake : ∀ t, s.world.Awake t → s'.world.Awake t
  line : ∀ k,
    s'.world.line k op = s.world.line k op ∧
        ((s.tracker k).isClosedAndEmpty = false → (s'.tracker k).isClosedAndEmpty = false) ∨
      s'.world.line k op = [] ∧ (s'.tracker k).running = 0 ∧ ∀ t ∈ s.world.line k op, s'.world.Awake t

/-- The same, and no tracker counts more than before. -/
structure Slackens (op : OperationId) (s s' : System) : Prop extends Spares op s s' where
  running : ∀ k, (s'.tracker k).running ≤ (s.tracker k).running

/-- The lines are as they were, before trackers that are. -/
theorem Spares.of_same (hr : s.registries.size ≤ s'.registries.size) (hk : s.trackers.size ≤ s'.trackers.size)
    (ha : ∀ t, s.world.Awake t → s'.world.Awake t) (hline : ∀ k, s'.world.line k op = s.world.line k op)
    (hshut : ∀ k, (s.tracker k).isClosedAndEmpty = false → (s'.tracker k).isClosedAndEmpty = false) : Spares op s s' :=
  ⟨hr, hk, ha, fun k => .inl ⟨hline k, hshut k⟩⟩

theorem Spares.trans (h : Spares op s₁ s₂) (h' : Slackens op s₂ s₃) : Spares op s₁ s₃ where
  registries := Nat.le_trans h.registries h'.registries
  trackers := Nat.le_trans h.trackers h'.trackers
  awake t ht := h'.awake t (h.awake t ht)
  line k := by
    rcases h'.line k with ⟨hline', hshut'⟩ | ⟨hline', hempty', hcalled'⟩
    · rcases h.line k with ⟨hline, hshut⟩ | ⟨hline, hempty, hcalled⟩
      · exact .inl ⟨hline'.trans hline, fun hs => hshut' (hshut hs)⟩
      · exact .inr ⟨hline'.trans hline, Nat.le_zero.mp (hempty ▸ h'.running k), fun t ht => h'.awake t (hcalled t ht)⟩
    · refine .inr ⟨hline', hempty', fun t ht => ?_⟩
      rcases h.line k with ⟨hline, -⟩ | ⟨-, -, hcalled⟩
      · exact hcalled' t (hline ▸ ht)
      · exact h'.awake t (hcalled t ht)

/-- Only the tracker in question is modified, if there is one. -/
theorem tracker_modifyTracker (s : System) (k l : TrackerId) (f : Tracker → Tracker) :
    (s.modifyTracker k f).tracker l = if k = l ∧ l < s.trackers.size then f (s.tracker l) else s.tracker l := by
  simp only [tracker, modifyTracker, Array.getElem?_modify]
  by_cases hk : k = l
  · by_cases hl : l < s.trackers.size <;> simp [hk, hl]
  · simp [hk]

/-- A new tracker is an empty one. -/
theorem tracker_push (s : System) (registries : Array TrackerId) (k : TrackerId) :
    ({ s with registries := registries, trackers := s.trackers.push {} } : System).tracker k = s.tracker k := by
  simp only [tracker, Array.getElem?_push]
  split
  · rename_i h
    rw [h, Array.getElem?_eq_none (Nat.le_refl _)]
    rfl
  · rfl

namespace Slackens

theorem trans (h : Slackens op s₁ s₂) (h' : Slackens op s₂ s₃) : Slackens op s₁ s₃ where
  toSpares := h.toSpares.trans h'
  running k := Nat.le_trans (h'.running k) (h.running k)

/-- Only the world changes, and the lines stay as they are. -/
theorem onWorld {w : World} (ha : ∀ t, s.world.Awake t → w.Awake t) (hline : ∀ k, w.line k op = s.world.line k op) :
    Slackens op s { s with world := w } :=
  ⟨.of_same (Nat.le_refl _) (Nat.le_refl _) ha hline fun _ h => h, fun _ => Nat.le_refl _⟩

/-- What goes on aside in the world keeps the places of an operation, and touches no tracker. -/
theorem aside {X : OperationId → Prop} {w : World} (hw : s.world.Aside X w) (hi : s.world.Issued (.operation op)) (hop : ¬ X op) :
    Slackens op s { s with world := w } :=
  onWorld hw.awake fun k => hw.line k op hi hop

/-- A task that is given another job keeps all places. -/
theorem setJob (s : System) (op : OperationId) (t : TaskId) (j : Job) : Slackens op s (s.setJob t j) :=
  ⟨.of_same (Nat.le_refl _) (Nat.le_refl _) (fun _ h => h) (fun _ => rfl) fun _ h => h, fun _ => Nat.le_refl _⟩

theorem refl (s : System) : Slackens op s s := onWorld (fun _ h => h) fun _ => rfl

/-- A tracker is changed, which does not make it closed and empty. -/
theorem retrack {f : Tracker → Tracker} (hf : ∀ x, (f x).running ≤ x.running)
    (hshut : (s.tracker k).isClosedAndEmpty = false → ((s.modifyTracker k f).tracker k).isClosedAndEmpty = false) :
    Slackens op s (s.modifyTracker k f) := by
  refine ⟨.of_same (Nat.le_refl _) (Nat.le_of_eq Array.size_modify.symm) (fun _ h => h) (fun _ => rfl) fun l hs => ?_, fun l => ?_⟩
  · by_cases hl : k = l
    · exact hl ▸ hshut (hl ▸ hs)
    · rw [tracker_modifyTracker, if_neg fun h => hl h.1, hs]
  · rw [tracker_modifyTracker]
    split
    · exact hf _
    · exact Nat.le_refl _

/-- A tracker is changed so that it is empty, and announced. -/
theorem announce {f : Tracker → Tracker} (hf : ∀ x, (f x).running ≤ x.running)
    (hempty : ((s.modifyTracker k f).tracker k).running = 0) :
    Slackens op s ((s.modifyTracker k f).onWorld (·.emit (.tracker k))) := by
  refine ⟨⟨Nat.le_refl _, Nat.le_of_eq Array.size_modify.symm, (World.Acts.emit _ _).awake, fun l => ?_⟩, fun l => ?_⟩
  · by_cases hl : k = l
    · subst hl
      exact .inr ⟨World.line_emit_self _ _ _, hempty, fun t => World.awake_emit⟩
    · refine .inl ⟨World.line_emit_of_ne _ (fun h => hl (Signal.tracker.inj h)) _, fun hs => ?_⟩
      have hsame : ((s.modifyTracker k f).onWorld (·.emit (.tracker k))).tracker l = s.tracker l :=
        (s.tracker_modifyTracker k l f).trans (if_neg fun h => hl h.1)
      rw [hsame, hs]
  · have hless := (s.tracker_modifyTracker k l f)
    refine Nat.le_trans (Nat.le_of_eq (congrArg Tracker.running hless)) ?_
    split
    · exact hf _
    · exact Nat.le_refl _

/-- A tracker that counts a task no longer keeps the places before it, or calls all who hold them because it is empty. -/
theorem untrack (s : System) (k : TrackerId) (op : OperationId) : Slackens op s (s.untrack k) := by
  unfold System.untrack
  dsimp only
  split
  · rename_i h
    exact announce (fun _ => Nat.sub_le _ _) (eq_of_beq (Bool.and_eq_true_iff.mp h).2)
  · rename_i h
    exact retrack (fun _ => Nat.sub_le _ _) fun _ => Bool.eq_false_iff.mpr h

/-- A tracker that is closed keeps the places before it, or calls all who hold them because it is empty. -/
theorem close (s : System) (k : TrackerId) (op : OperationId) : Slackens op s (s.close k) := by
  unfold System.close
  dsimp only
  split
  · rename_i h
    refine announce (fun _ => Nat.le_refl _) ?_
    rw [tracker_modifyTracker]
    split <;> exact eq_of_beq (Bool.and_eq_true_iff.mp h).2
  · rename_i h
    refine retrack (fun _ => Nat.le_refl _) fun hs => ?_
    rw [tracker_modifyTracker]
    split
    · simp only [Tracker.isClosedAndEmpty, Bool.not_eq_true, Bool.and_eq_false_iff, Bool.not_eq_false'] at h hs ⊢
      exact .inr (h.elim (fun hc => hs.resolve_left (by rw [hc]; nofun)) id)
    · exact hs

/-- A tracker that is opened again keeps the places before it: it is not closed. -/
theorem reopen (s : System) (k : TrackerId) (op : OperationId) : Slackens op s (s.reopen k) := by
  refine retrack (fun _ => Nat.le_refl _) fun hs => ?_
  rw [tracker_modifyTracker]
  split
  · rfl
  · exact hs

/-- A task ends, and gives up the places of its own operation. -/
theorem finish (s : System) (t : TaskId) (x : Ending) (hop : ∀ task, s.tasks[t]? = some task → task.op ≠ op) :
    Slackens op s (s.finish t x) := by
  unfold System.finish
  split
  · exact refl s
  · rename_i task htask
    have hforgot : Slackens op s (s.onWorld (·.forget task.op)) :=
      onWorld (World.Acts.forget _ _).awake fun k => World.line_forget_of_ne _ (hop task htask) k
    have hended {v : System} (hv : Slackens op s v) : Slackens op s ((v.setJob t (.ended x)).onWorld (·.emit (.task t))) := by
      refine (hv.trans (setJob v op t (.ended x))).trans (onWorld (World.Acts.emit _ _).awake fun k => ?_)
      exact World.line_emit_of_ne _ Signal.noConfusion op
    dsimp only
    split
    · exact hended (hforgot.trans (untrack _ _ op))
    · exact hended hforgot

end Slackens

/-- A tracker that counts one task more is not empty. -/
theorem shut_track (s : System) (r : RegistryId) (hs : (s.tracker k).isClosedAndEmpty = false) :
    ((s.track r).2.tracker k).isClosedAndEmpty = false := by
  have hsame : (s.track r).2.tracker k = _ := s.tracker_modifyTracker _ k _
  rw [hsame]
  split
  · simp [Tracker.isClosedAndEmpty]
  · exact hs

/-- A run that is counted keeps all places: no tracker becomes empty. -/
theorem Spares.track (s : System) (r : RegistryId) (op : OperationId) : Spares op s (s.track r).2 :=
  .of_same (Nat.le_refl _) (Nat.le_of_eq Array.size_modify.symm) (fun _ h => h) (fun _ => rfl) fun _ => s.shut_track r

/-- The world goes on aside from those who wait in line, and then their places are spared. -/
theorem Spares.after {X : OperationId → Prop} {w : World} (hw : s.world.Aside X w) (hi : s.world.Issued (.operation op))
    (hop : ¬ X op) (h : Spares op { s with world := w } s') : Spares op s s' where
  registries := h.registries
  trackers := h.trackers
  awake t ht := h.awake t (hw.awake t ht)
  line k := by
    have hsame := hw.line k op hi hop
    rcases h.line k with ⟨hline, hshut⟩ | ⟨hline, hempty, hcalled⟩
    · exact .inl ⟨hline.trans hsame, hshut⟩
    · exact .inr ⟨hline, hempty, fun t ht => hcalled t (show t ∈ w.line k op from hsame ▸ ht)⟩

/-- A registry is made, or the tracker of one is replaced, by a new tracker. -/
theorem Spares.register (s : System) (op : OperationId) {registries : Array TrackerId}
    (hsize : s.registries.size ≤ registries.size) :
    Spares op s { s with registries := registries, trackers := s.trackers.push {} } :=
  .of_same hsize (by simp) (fun _ h => h) (fun _ => rfl) fun k hk => by rwa [tracker_push]

/-- A task is added. -/
theorem Spares.spawn (s : System) (op : OperationId) (j : Job) (k : Option TrackerId) : Spares op s (s.spawn j k).2 := by
  have hworld : World.Faithful Stake.None s.world (s.world.newOperation.2.wake s.tasks.size) :=
    World.Faithful.newOperation.trans (World.Acts.wake _ _).toFaithful fun _ _ h => h
  refine .of_same (Nat.le_refl _) (Nat.le_refl _) hworld.awake (fun l => ?_) fun _ h => h
  exact World.line_eq (World.waiters_wake _ _) l op

/-- A run that is launched keeps all places. -/
theorem Spares.launch (s : System) (op : OperationId) (r : Runtime) (n : Node) (env : Environment) (token : TokenId) :
    Spares op s (s.launch r n env token).2 := by
  have htrack := Spares.track s r.registry op
  have hspawn := Spares.spawn (s.track r.registry).2 op (.launched (.start n env token r.interval))
    (some (s.track r.registry).1)
  refine .of_same hspawn.registries ?_ hspawn.awake (fun k => World.line_eq (World.waiters_wake _ _) k op) ?_
  · exact Nat.le_trans htrack.trackers hspawn.trackers
  · exact fun k hs => s.shut_track r.registry hs

/-- The poll of a task spares the places of all operations but those on whose behalf it can wait. -/
theorem Does.spares {c : Option TrackerId} (h : s.Does t op j s') (ht : s.tasks[t]? = some { job := j, op := op, tracker := c })
    {o : OperationId} (hi : s.world.Issued (.operation o)) (ho : ¬ j.Owns op o) : Spares o s s' := by
  have hne : op ≠ o := fun heq => ho (.inl heq.symm)
  have finished {v : System} (hv : v.tasks[t]? = some { job := j, op := op, tracker := c }) (x : Ending) :
      Slackens o v (v.finish t x) :=
    .finish v t x fun task htask => by
      obtain rfl := Option.some.inj (hv.symm.trans htask)
      exact hne
  have closed {w : World} (k : TrackerId) : ({ s with world := w }.close k).tasks[t]? = some { job := j, op := op, tracker := c } :=
    (getElem?_close { s with world := w } k t).trans ht
  have parked (v : System) (signal : Signal) : Slackens o v (v.onWorld (·.park signal op)) :=
    .onWorld (World.Acts.park _ _ _).awake fun k => World.line_park_of_ne _ signal (.inr hne)
  cases h with
  | lasts _ hw => exact (Slackens.aside hw hi ho).toSpares
  | goesOn _ hw => exact ((Slackens.aside hw hi ho).trans (.setJob _ o t _)).toSpares
  | ends _ hw x => exact .after hw hi ho (finished (by exact ht) x).toSpares
  | launches _ hw token => exact .after hw hi ho (((Spares.launch _ o _ _ _ token).trans (parked _ _)).trans (.setJob _ o t _))
  | linesUp _ hw => exact .after hw hi id (((Slackens.close _ _ o).trans (parked _ _)).trans (.setJob _ o t _)).toSpares
  | @passesAtOnce w v r _ _ hw _ hv x =>
    have hopened := (Slackens.close { s with world := w } (s.currentTracker r) o).trans (.reopen _ (s.currentTracker r) o)
    refine .after hw hi id (hopened.toSpares.trans ((Slackens.aside (w := v) ?_ ?_ ho).trans (finished ?_ x)))
    · exact hv
    · exact (close_acts _ _).issued (hw.issued o hi)
    · exact closed _
  | stays => exact (Slackens.refl s).toSpares
  | @passes w k _ _ _ hw x =>
    refine (Slackens.reopen s k o).toSpares.trans ((Slackens.aside (w := w) ?_ ?_ ho).trans (finished ?_ x))
    · exact hw
    · exact hi
    · exact ht

/-! ## Where tasks stand -/

/-- A task stands in line before a tracker that is not closed and empty. -/
structure Waits (s : System) (k : TrackerId) (op : OperationId) (t : TaskId) : Prop where
  line : s.world.line k op = [t]
  shut : (s.tracker k).isClosedAndEmpty = false

end System

/-- Where a task stands with its job between polls. -/
def Job.Placed (t : TaskId) (op : OperationId) (s : System) : Job → Prop
  | .call r _ _ _ => r.registry < s.registries.size
  | .drain r _ => r < s.registries.size ∧ (∀ k, s.world.line k op = []) ∧ s.world.Awake t
  | .draining k _ => k < s.trackers.size ∧ (s.Waits k op t ∨ s.world.line k op = [] ∧ s.world.Awake t)
  | _ => True

/-- What holds between polls of the places in line and their holders, with an exception for one task. -/
structure System.Lined (except : Option TaskId) (s : System) : Prop where
  registries : ∀ r, r < s.registries.size → s.currentTracker r < s.trackers.size
  unplaced : s.world.Unplaced
  issued : ∀ (t : TaskId) task, s.tasks[t]? = some task → s.world.Issued (.operation task.op)
  own : ∀ (t t' : TaskId) task task', s.tasks[t]? = some task → s.tasks[t']? = some task' → task.op = task'.op → t = t'
  /-- The operations that the jobs await have begun, and none of them is the own one of a task. -/
  stakes : ∀ t j, s.job? t = some j → ∀ op, .operation op ∈ j.stakes → s.world.Issued (.operation op)
  apart : ∀ (t t' : TaskId) task j, s.tasks[t]? = some task → s.job? t' = some j → .operation task.op ∉ j.stakes
  jobs : ∀ (t : TaskId) task, s.tasks[t]? = some task → except ≠ some t → task.job.Placed t task.op s

/-- A task stands where it stood, or has been called out of its line and is ready. -/
theorem Job.Placed.onward {t : TaskId} {op : OperationId} {s s' : System} {j : Job} (hj : j.Placed t op s)
    (h : s.Spares op s') : j.Placed t op s' := by
  cases j with
  | call r n env token => exact Nat.lt_of_lt_of_le hj h.registries
  | drain r a =>
    obtain ⟨hr, hline, hawake⟩ := hj
    refine ⟨Nat.lt_of_lt_of_le hr h.registries, fun k => ?_, h.awake t hawake⟩
    rcases h.line k with ⟨hsame, -⟩ | ⟨hnone, -⟩
    · rw [hsame, hline]
    · exact hnone
  | draining k a =>
    obtain ⟨hk, hplace⟩ := hj
    refine ⟨Nat.lt_of_lt_of_le hk h.trackers, ?_⟩
    rcases h.line k with ⟨hsame, hshut⟩ | ⟨hnone, -, hcalled⟩
    · rw [hsame]
      exact hplace.imp (fun hw => ⟨hsame.trans hw.line, hshut hw.shut⟩) fun ⟨hl, ha⟩ => ⟨hl, h.awake t ha⟩
    · refine .inr ⟨hnone, ?_⟩
      rcases hplace with hw | ⟨-, ha⟩
      · exact hcalled t (hw.line ▸ List.mem_cons_self)
      · exact h.awake t ha
  | _ => trivial

namespace System

variable {s s' : System} {k : TrackerId} {op : OperationId} {t : TaskId} {j : Job} {e : Option TaskId}

/-- A drain that closes a tracker and waits for it stands in line, if it has waited for nothing before. Closing the tracker takes
nobody a place. -/
theorem line_linesUp (hc : s.world.current = some t) (hi : s.world.Issued (.operation op)) {w : World}
    (hw : s.world.Aside (fun _ => False) w) (hempty : s.world.line k op = []) :
    (({ s with world := w }.close k).world.park (.tracker k) op).line k op = [t] := by
  have hcurrent := ((close_acts { s with world := w } k).current.trans hw.current).trans hc
  have hbefore : w.line k op = [] := (hw.line k op hi id).trans hempty
  rcases (Slackens.close { s with world := w } k op).line k with ⟨h, -⟩ | ⟨h, -⟩
  · exact World.line_park_self hcurrent (h.trans hbefore)
  · exact World.line_park_self hcurrent h

namespace Lined

/-- The tasks and the registries stay as they are, and the places of the tasks are spared. -/
theorem spares (hs : s.Lined e) (ht : s'.tasks = s.tasks) (hr : s'.registries = s.registries)
    (hk : s.trackers.size ≤ s'.trackers.size) (hu : s'.world.Unplaced)
    (hi : ∀ op, s.world.Issued (.operation op) → s'.world.Issued (.operation op))
    (h : ∀ (t : TaskId) task, s.tasks[t]? = some task → e ≠ some t → s.Spares task.op s') : s'.Lined e where
  registries r hlt := by
    rw [hr] at hlt
    rw [currentTracker, hr]
    exact Nat.lt_of_lt_of_le (hs.registries r hlt) hk
  unplaced := hu
  issued t task htask := hi _ (hs.issued t task (ht ▸ htask))
  own t t' task task' h h' := hs.own t t' task task' (ht ▸ h) (ht ▸ h')
  stakes t j hj op hop := hi op (hs.stakes t j (by simpa only [job?, ht] using hj) op hop)
  apart t t' task j h hj := hs.apart t t' task j (ht ▸ h) (by simpa only [job?, ht] using hj)
  jobs t task htask he := (hs.jobs t task (ht ▸ htask) he).onward (h t task (ht ▸ htask) he)

/-- What is done to trackers spares all places. -/
theorem slackens (hs : s.Lined e) (ht : s'.tasks = s.tasks) (hr : s'.registries = s.registries)
    (hi : ∀ op, s.world.Issued (.operation op) → s'.world.Issued (.operation op)) (h : ∀ op, s.Spares op s') : s'.Lined e := by
  refine hs.spares ht hr (h 0).trackers (fun op hop k => ?_) hi fun t task _ _ => h task.op
  rcases (h op).line k with ⟨hsame, -⟩ | ⟨hnone, -⟩
  · rw [hsame]
    exact hs.unplaced op (fun h => hop (hi op h)) k
  · exact hnone

/-- The world goes on aside from those who wait in line. -/
theorem aside (hs : s.Lined e) {X : OperationId → Prop} {w : World} (hw : s.world.Aside X w)
    (hX : ∀ (t : TaskId) task, s.tasks[t]? = some task → e ≠ some t → ¬ X task.op) : Lined e { s with world := w } :=
  hs.spares rfl rfl (Nat.le_refl _) (hw.unplaced hs.unplaced) hw.issued fun t task ht he =>
    (Slackens.aside hw (hs.issued t task ht) (hX t task ht he)).toSpares

/-- The same, if it is about the own operation of the task that is excepted. -/
theorem aside_own (hs : s.Lined (some t)) {task : Task} (ht : s.tasks[t]? = some task) {w : World}
    (hw : s.world.Aside (· = task.op) w) : Lined (some t) { s with world := w } :=
  hs.aside hw fun t' task' h hne hop => hne (by rw [hs.own t t' task task' ht h hop.symm])

/-- A change to a tracker that keeps all places leaves every task where its job places it. -/
theorem modifyTracker (hs : s.Lined e) {f : Tracker → Tracker} (h : ∀ op, s.Spares op (s.modifyTracker k f)) :
    (s.modifyTracker k f).Lined e :=
  hs.slackens rfl rfl (fun _ h => h) h

/-- Every task stands where its job places it when a tracker counts a task no longer. -/
theorem untrack (hs : s.Lined e) (k : TrackerId) : (s.untrack k).Lined e := by
  have hspares (op : OperationId) := (Slackens.untrack s k op).toSpares
  revert hspares
  unfold System.untrack
  dsimp only
  split
  · exact hs.slackens rfl rfl fun _ => (World.Acts.emit _ _).issued
  · exact hs.modifyTracker

/-- Every task stands where its job places it when a tracker is closed. -/
theorem close (hs : s.Lined e) (k : TrackerId) : (s.close k).Lined e := by
  have hspares (op : OperationId) := (Slackens.close s k op).toSpares
  revert hspares
  unfold System.close
  dsimp only
  split
  · exact hs.slackens rfl rfl fun _ => (World.Acts.emit _ _).issued
  · exact hs.modifyTracker

/-- Every task stands where its job places it when a tracker is opened again. -/
theorem reopen (hs : s.Lined e) (k : TrackerId) : (s.reopen k).Lined e :=
  hs.modifyTracker fun op => (Slackens.reopen s k op).toSpares

/-- Every task stands where its job places it when a run is counted. -/
theorem track (hs : s.Lined e) (r : RegistryId) : (s.track r).2.Lined e :=
  hs.modifyTracker fun op => Spares.track s r op

/-- A task is given another job. Every task keeps its operation, and only that one has a job other than before. -/
theorem setJob (hs : s.Lined e) (he : e = none ∨ e = some t)
    (hj : ∀ task, s.tasks[t]? = some task → j.Placed t task.op s)
    (hi : ∀ op, .operation op ∈ j.stakes → s.world.Issued (.operation op))
    (hx : ∀ (t' : TaskId) task, s.tasks[t']? = some task → .operation task.op ∉ j.stakes) : (s.setJob t j).Lined none := by
  have hcases : ∀ {t' : TaskId} {task'}, (s.setJob t j).tasks[t']? = some task' →
      ∃ task, s.tasks[t']? = some task ∧ task'.op = task.op ∧ (t = t' ∧ task'.job = j ∨ t ≠ t' ∧ task'.job = task.job) := by
    intro t' task' h
    simp only [System.setJob, Array.getElem?_modify] at h
    split at h
    · rename_i heq
      obtain ⟨task, htask, rfl⟩ := Option.map_eq_some_iff.mp h
      exact ⟨task, htask, rfl, .inl ⟨heq, rfl⟩⟩
    · rename_i hne
      exact ⟨task', h, rfl, .inr ⟨hne, rfl⟩⟩
  have hjobs : ∀ {t' j'}, (s.setJob t j).job? t' = some j' → j' = j ∨ s.job? t' = some j' := by
    intro t' j' h
    rw [job?_setJob] at h
    split at h
    · obtain ⟨_, -, rfl⟩ := Option.map_eq_some_iff.mp h
      exact .inl rfl
    · exact .inr h
  exact
    { registries := hs.registries
      unplaced := hs.unplaced
      issued := fun t' task' h => by
        obtain ⟨task, htask, hop, -⟩ := hcases h
        rw [hop]
        exact hs.issued t' task htask
      own := fun a b task task' ha hb hop => by
        obtain ⟨x, hx, hopx, -⟩ := hcases ha
        obtain ⟨y, hy, hopy, -⟩ := hcases hb
        exact hs.own a b x y hx hy (hopx.symm.trans (hop.trans hopy))
      stakes := fun t' j' h => by
        rcases hjobs h with rfl | h
        · exact hi
        · exact hs.stakes t' j' h
      apart := fun a b task j' ha hb => by
        obtain ⟨x, hxa, hopx, -⟩ := hcases ha
        rw [hopx]
        rcases hjobs hb with rfl | hb
        · exact hx a x hxa
        · exact hs.apart a b x j' hxa hb
      jobs := fun t' task' h _ => by
        obtain ⟨task, htask, hop, hjob⟩ := hcases h
        rw [hop]
        have hplaced : task'.job.Placed t' task.op s := by
          rcases hjob with ⟨rfl, hjob⟩ | ⟨hne, hjob⟩ <;> rw [hjob]
          · exact hj task htask
          · refine hs.jobs t' task htask ?_
            rintro rfl
            exact hne (by simpa using he : t' = t).symm
        exact hplaced.onward (Slackens.setJob s _ t j).toSpares }

/-- A job that awaits no operations and stands nowhere in line. -/
theorem setJob_quiet (hs : s.Lined e) (he : e = none ∨ e = some t) (hj : ∀ op, j.Placed t op s) (hx : j.stakes = []) :
    (s.setJob t j).Lined none :=
  hs.setJob he (fun task _ => hj task.op) (fun op h => by rw [hx] at h; nomatch h) fun _ _ _ h => by rw [hx] at h; nomatch h

/-- A task is added, under an operation on whose behalf nobody waits. -/
theorem spawn (hs : s.Lined e) (hx : j.stakes = []) (c : Option TrackerId)
    (hj : (∀ k, (s.spawn j c).2.world.line k s.world.operations.size = []) → (s.spawn j c).2.world.Awake s.tasks.size →
      j.Placed s.tasks.size s.world.operations.size (s.spawn j c).2) : (s.spawn j c).2.Lined e := by
  have hworld : World.Faithful Stake.None s.world (s.spawn j c).2.world :=
    World.Faithful.newOperation.trans (World.Acts.wake _ _).toFaithful fun _ _ h => h
  have hline (k : TrackerId) (op : OperationId) : (s.spawn j c).2.world.line k op = s.world.line k op :=
    World.line_eq (World.waiters_wake _ _) k op
  have hnew : ¬ s.world.Issued (.operation s.world.operations.size) := Nat.lt_irrefl _
  have hissued : (s.spawn j c).2.world.Issued (.operation s.world.operations.size) := by
    have hlt : s.world.newOperation.2.Issued (.operation s.world.operations.size) := by simp [World.Issued, World.newOperation]
    exact (World.Acts.wake _ _).issued hlt
  exact
    { registries := hs.registries
      unplaced := fun op hop k => by
        rw [hline]
        exact hs.unplaced op (fun h => hop (hworld.issued h)) k
      issued := fun t task h => by
        rcases spawn_cases h with ⟨-, rfl⟩ | h
        · exact hissued
        · exact hworld.issued (hs.issued t task h)
      own := fun a b x y ha hb hop => by
        rcases spawn_cases ha with ⟨rfl, rfl⟩ | ha <;> rcases spawn_cases hb with ⟨rfl, rfl⟩ | hb
        · rfl
        · exact absurd (hs.issued b y hb) (by rw [← hop]; exact hnew)
        · exact absurd (hs.issued a x ha) (by rw [hop]; exact hnew)
        · exact hs.own a b x y ha hb hop
      stakes := fun t i h op hop => by
        rcases job?_spawn_cases h with ⟨-, rfl⟩ | h
        · rw [hx] at hop
          exact absurd hop List.not_mem_nil
        · exact hworld.issued (hs.stakes t i h op hop)
      apart := fun a b x i ha hb hop => by
        rcases job?_spawn_cases hb with ⟨-, rfl⟩ | hb
        · rw [hx] at hop
          exact absurd hop List.not_mem_nil
        · rcases spawn_cases ha with ⟨-, rfl⟩ | ha
          · exact hnew (hs.stakes b i hb _ hop)
          · exact hs.apart a b x i ha hb hop
      jobs := fun t task h he => by
        rcases spawn_cases h with ⟨rfl, rfl⟩ | h
        · refine hj (fun k => ?_) (World.awake_wake _ _)
          rw [hline, hs.unplaced _ hnew]
        · exact (hs.jobs t task h he).onward (Spares.spawn s task.op j c) }

/-- Every task stands where its job places it when a run is launched. -/
theorem launch (hs : s.Lined e) (r : Runtime) (n : Node) (env : Environment) (token : TokenId) :
    (s.launch r n env token).2.Lined e :=
  Lined.spawn (j := .launched (.start n env token r.interval)) (hs.track r.registry) rfl _ fun _ _ => trivial

/-- A task ends. -/
theorem finish (hs : s.Lined (some t)) (x : Ending) : (s.finish t x).Lined none := by
  unfold System.finish
  split
  · rename_i hnone
    exact
      { hs with
        jobs := fun t' task h _ => hs.jobs t' task h fun heq => by
          rw [← Option.some.inj heq, hnone] at h
          nomatch h }
  · rename_i task htask
    have hforgot : (s.onWorld (·.forget task.op)).Lined (some t) :=
      hs.aside_own htask (.of_own (.forget _ _) (.forget _ rfl) (hs.issued t task htask) rfl)
    have hended {v : System} (hv : v.Lined (some t)) : ((v.setJob t (.ended x)).onWorld (·.emit (.task t))).Lined none := by
      refine (hv.setJob_quiet (j := .ended x) (.inr rfl) (fun _ => trivial) rfl).aside (X := fun _ => False)
        (.acts (.emit _ _) (.emit _ ?_)) ?_
      · exact fun k h => nomatch h
      · exact fun _ _ _ _ => id
    dsimp only
    split
    · exact hended (hforgot.untrack _)
    · exact hended hforgot

/-- Every task stands where its job places it when a registry is made or reset, and gets a new tracker. -/
theorem register (hs : s.Lined e) {registries : Array TrackerId} (hsize : s.registries.size ≤ registries.size)
    (hr : ∀ (r : RegistryId) k, registries[r]? = some k → k = s.trackers.size ∨ s.registries[r]? = some k) :
    Lined e { s with registries := registries, trackers := s.trackers.push {} } where
  registries r hlt := by
    have hk := hr r registries[r] (Array.getElem?_eq_getElem hlt)
    simp only [currentTracker, Array.getElem?_eq_getElem hlt, Option.getD_some, Array.size_push]
    rcases hk with hk | hk
    · exact Nat.lt_succ_of_le (Nat.le_of_eq hk)
    · have hold := hs.registries r (Array.getElem?_eq_some_iff.mp hk).1
      rw [currentTracker, hk] at hold
      exact Nat.lt_succ_of_lt hold
  unplaced := hs.unplaced
  issued := hs.issued
  own := hs.own
  stakes := hs.stakes
  apart := hs.apart
  jobs t task h he := (hs.jobs t task h he).onward (.register s task.op hsize)

/-! ## Polls -/

/-- What a poll leaves of a task that has not been excepted before stands where it has to. -/
theorem of_placed (hs : s.Lined (some t)) (h : ∀ task, s.tasks[t]? = some task → task.job.Placed t task.op s) : s.Lined none :=
  { hs with
    jobs := fun t' task htask _ => by
      by_cases heq : t' = t
      · subst heq
        exact h task htask
      · exact hs.jobs t' task htask fun h => heq (Option.some.inj h).symm }

/-- The queue changes, and the task that is being polled. -/
theorem rescheduled (hs : s.Lined none) {d : Option TaskId} {ready : List TaskId} {woken : Bool}
    (h : ∀ (t : TaskId) task, s.tasks[t]? = some task → e ≠ some t → (s.ending? t).isNone = true → s.world.Awake t →
      (s.world.scheduled ready d woken).Awake t) : (s.onWorld (·.scheduled ready d woken)).Lined e where
  registries := hs.registries
  unplaced := hs.unplaced
  issued := hs.issued
  own := hs.own
  stakes := hs.stakes
  apart := hs.apart
  jobs t task htask hne := by
    have htask : s.tasks[t]? = some task := htask
    have hplaced := hs.jobs t task htask nofun
    have hawake := h t task htask hne
    obtain ⟨job, op, tracker⟩ := task
    cases job with
    | drain r a => exact ⟨hplaced.1, hplaced.2.1, hawake (by simp [ending?, htask]) hplaced.2.2⟩
    | draining k a =>
      refine ⟨hplaced.1, hplaced.2.imp (fun hw => ⟨hw.line, hw.shut⟩) fun hcalled => ⟨hcalled.1, ?_⟩⟩
      exact hawake (by simp [ending?, htask]) hcalled.2
    | _ => exact hplaced

/-- A ready task is taken out of the queue in order to be polled. -/
theorem entering (hs : s.Lined none) (hc : s.world.current = none) (t : TaskId) : (s.onWorld (·.serving t)).Lined (some t) :=
  hs.rescheduled fun t' _ _ hne _ h => by
    rcases h with h | ⟨h, -⟩
    · exact .inl ((List.mem_erase_of_ne fun heq => hne (by rw [heq])).mpr h)
    · rw [hc] at h
      nomatch h

/-- The poll of a task is over. -/
theorem leaving (hs : s.Lined none) (hc : s.world.current = some t) : (s.leave t).Lined none := by
  obtain ⟨ready, hleft, hawake⟩ := leave_scheduled hc
  rw [hleft]
  refine hs.rescheduled fun t' _ _ _ hunended h => .inl ((hawake t' h).resolve_right ?_)
  rintro ⟨rfl, hend⟩
  exact hend hunended

/-- What the poll of a task does to the places in line. A drain that is polled for the first time waits for nothing, and one that
has been polled has no place in line other than its own. -/
theorem does (hs : s.Lined (some t)) (hc : s.world.current = some t) {c : Option TrackerId}
    (ht : s.tasks[t]? = some { job := j, op := op, tracker := c })
    (hfirst : ∀ r a, j = .drain r a → r < s.registries.size ∧ ∀ k, s.world.line k op = [])
    (hlater : ∀ k a, j = .draining k a → k < s.trackers.size ∧ (s.world.line k op ≠ [] → s.world.line k op = [t]))
    (h : s.Does t op j s') : s'.Lined none := by
  have hissued : s.world.Issued (.operation op) := hs.issued t _ ht
  have hothers : ∀ (t' : TaskId) task, s.tasks[t']? = some task → some t ≠ some t' → ¬ j.Owns op task.op := by
    rintro t' task ht' hne (hop | hop)
    · exact hne (by rw [hs.own t t' _ task ht ht' hop.symm])
    · exact hs.apart t' t task j ht' (s.job?_eq ht) hop
  have haside {w : World} (hw : s.world.Aside (j.Owns op) w) : Lined (some t) { s with world := w } := hs.aside hw hothers
  cases h with
  | lasts hj hw =>
    refine (haside hw).of_placed fun task htask => ?_
    have htask : s.tasks[t]? = some task := htask
    obtain rfl := Option.some.inj (ht.symm.trans htask)
    cases j <;> trivial
  | @goesOn w j' hj hw hj' hx =>
    refine (haside hw).setJob (.inr rfl) (fun task _ => ?_) (fun o ho => (hx o ho).1) fun t' task ht' ho => ?_
    · cases j' <;> trivial
    · rcases (hx _ ho).2 with ho | ho
      · exact hs.apart t' t task j ht' (s.job?_eq ht) ho
      · exact ho (hs.issued t' task ht')
  | ends hj hw x => exact (haside hw).finish x
  | @launches w r n env _ hj hw token =>
    have hlaunched := (haside hw).launch r n env token
    have ht' := getElem?_launch_of_some (s := { s with world := w }) ht r n env token
    have hparked := hlaunched.aside_own ht' (.of_own (.park _ (.task s.tasks.size) op) (.park _ _ rfl)
      (hlaunched.issued t _ ht') rfl)
    exact hparked.setJob_quiet (.inr rfl) (fun _ => trivial) rfl
  | @linesUp w r a hj hw hk =>
    obtain ⟨hr, hempty⟩ := hfirst r a hj
    have hclosed := (hs.aside hw fun _ _ _ _ => id).close (s.currentTracker r)
    have ht' := (getElem?_close { s with world := w } (s.currentTracker r) t).trans ht
    have hparked := hclosed.aside_own ht' (.of_own (.park _ (.tracker (s.currentTracker r)) op) (.park _ _ rfl)
      (hclosed.issued t _ ht') rfl)
    refine hparked.setJob (.inr rfl) (fun task htask => ?_) nofun fun _ _ _ => nofun
    obtain rfl := Option.some.inj (ht'.symm.trans htask)
    refine ⟨?_, .inl ⟨line_linesUp hc hissued hw (hempty _), hk⟩⟩
    exact Nat.lt_of_lt_of_le (hs.registries r hr) (Slackens.close { s with world := w } (s.currentTracker r) op).trackers
  | @passesAtOnce w _ r _ hj hw hk hv x =>
    have hclosed := (hs.aside hw fun _ _ _ _ => id).close (s.currentTracker r)
    refine ((hclosed.reopen _).aside hv fun t' task ht' => hothers t' task ?_).finish x
    exact (getElem?_close { s with world := w } (s.currentTracker r) t').symm.trans ht'
  | stays hj hline hk =>
    refine hs.of_placed fun task htask => ?_
    obtain rfl := Option.some.inj (ht.symm.trans htask)
    subst hj
    obtain ⟨hlt, hown⟩ := hlater _ _ rfl
    exact ⟨hlt, .inl ⟨hown hline, hk⟩⟩
  | passes hj hk hw x => exact ((hs.reopen _).aside hw hothers).finish x

/-- Every task stands where its job places it when a task has been polled. -/
theorem poll (hs : s.Lined none) (hsound : s.Sound none none) {turns : Nat} (hn : ∀ k, s.poll (turns + k) t = s.poll turns t) :
    (s.poll turns t).Lined none := by
  have hc := hsound.polled
  cases ht : s.tasks[t]? with
  | none =>
    rw [poll_none ht]
    refine hs.rescheduled fun t' task ht' _ _ h => h.imp_left (List.mem_erase_of_ne ?_).mpr
    rintro rfl
    rw [ht] at ht'
    nomatch ht'
  | some task =>
    obtain ⟨s', hdoes, hcurrent, hpoll⟩ := poll_does hsound ht (hs.issued t task ht) hn
    have hplaced := hs.jobs t task ht nofun
    rw [hpoll]
    refine ((hs.entering hc t).does rfl ht (fun r a hj => ?_) (fun k a hj => ?_) hdoes).leaving hcurrent <;> rw [hj] at hplaced
    · exact ⟨hplaced.1, hplaced.2.1⟩
    · exact ⟨hplaced.1, fun hline => (hplaced.2.resolve_right fun h => hline h.1).line⟩

end Lined

end System

/-- A task that begins stands in no line, and is ready. -/
theorem Job.Begins.placed {s s' : System} {t : TaskId} {op : OperationId} {j : Job} (hj : j.Begins s)
    (hr : s.registries.size ≤ s'.registries.size) (hline : ∀ k, s'.world.line k op = []) (hawake : s'.world.Awake t) :
    j.Placed t op s' := by
  cases j with
  | call r n env token => exact Nat.lt_of_lt_of_le hj hr
  | drain r a => exact ⟨Nat.lt_of_lt_of_le hj hr, hline, hawake⟩
  | notify run onExit => trivial
  | future f => trivial
  | _ => exact hj.elim

namespace System

variable {s s' : System}

/-- Every move leaves the tasks where they have to stand. -/
theorem Move.lined (h : Move s s') (hs : s.Lined none) (hsound : s.Sound none none) : s'.Lined none := by
  cases h with
  | poll ht hn => exact hs.poll hsound hn
  | host h => exact hs.aside (h.aside fun _ => False) fun _ _ _ _ => id
  | launch _ n env token => exact hs.launch _ n env token
  | spawn hj => exact hs.spawn hj.fresh.stakes _ (hj.placed (Nat.le_refl _))
  | hold _ => exact hs.track _
  | spawnHeld hj _ => exact hs.spawn hj.fresh.stakes _ (hj.placed (Nat.le_refl _))
  | dropHeld _ => exact hs.untrack _
  | newRegistry =>
    refine hs.register (by simp) fun r k h => ?_
    rw [Array.getElem?_push] at h
    split at h
    · exact .inl (Option.some.inj h).symm
    · exact .inr h
  | reset r =>
    have hnoted : s.world.Aside (fun _ => False) (s.world.record (.forgotten (s.inFlight r))) := .acts (.record _ _) (.of_eq rfl)
    refine (hs.aside hnoted fun _ _ _ _ => id).register (by simp) fun r' k h => ?_
    rw [Array.getElem?_modify] at h
    split at h
    · obtain ⟨_, -, rfl⟩ := Option.map_eq_some_iff.mp h
      exact .inl rfl
    · exact .inr h

/-- A system in which nothing has happened has no tasks. -/
theorem Lined.empty : Lined none {} where
  registries _ h := nomatch h
  unplaced _ _ _ := rfl
  issued _ _ h := nomatch h
  own _ _ _ _ h := nomatch h
  stakes _ _ h := nomatch h
  apart _ _ _ _ h := nomatch h
  jobs _ _ h := nomatch h

/-- Between polls, every task of an attained state stands where its job places it. The induction is on the moves. -/
theorem Attained.lined (hs : s.Attained) : s.Lined none := by
  induction hs with
  | refl => exact .empty
  | tail hs h ih => exact h.lined ih (Attained.sound hs)

/-- What the poll of a task does, up to the queue. -/
theorem Attained.polled (hs : s.Attained) {t : TaskId} {task : Task} (ht : s.tasks[t]? = some task) {turns : Nat}
    (hn : ∀ k, s.poll (turns + k) t = s.poll turns t) :
    ∃ v ready, (s.onWorld (·.serving t)).Does t task.op task.job v ∧ s.poll turns t = v.onWorld (·.scheduled ready none false) := by
  obtain ⟨v, hdoes, hcurrent, hpoll⟩ := poll_does hs.sound ht (hs.lined.issued t task ht) hn
  obtain ⟨ready, hleft, -⟩ := leave_scheduled hcurrent
  exact ⟨v, ready, hdoes, hpoll.trans hleft⟩

/-- The same of a task that is not a run, for which it makes no difference how many turns a poll may take. -/
theorem Attained.polled_quiet (hs : s.Attained) {t : TaskId} {task : Task} (ht : s.tasks[t]? = some task) (hq : task.job.Quiet)
    (turns : Nat) :
    ∃ v ready, (s.onWorld (·.serving t)).Does t task.op task.job v ∧ s.poll turns t = v.onWorld (·.scheduled ready none false) := by
  obtain ⟨v, hdoes, hcurrent, hpoll⟩ := poll_rests_does hs.sound ht (hs.lined.issued t task ht) turns hq.rests
  obtain ⟨ready, hleft, -⟩ := leave_scheduled hcurrent
  exact ⟨v, ready, hdoes, hpoll.trans hleft⟩

/-! ## A move as seen by one who waits -/

/-- A move is a poll, or else it keeps the tasks as they are and spares their places. -/
theorem Move.cases (h : Move s s') :
    (∃ t turns, t ∈ s.world.ready ∧ (∀ k, s.poll (turns + k) t = s.poll turns t) ∧ s' = s.poll turns t) ∨
      (∀ (t : TaskId) task, s.tasks[t]? = some task → s'.tasks[t]? = some task) ∧
        ∀ op, s.world.Issued (.operation op) → s.Spares op s' := by
  cases h with
  | poll ht hn => exact .inl ⟨_, _, ht, hn, rfl⟩
  | host h => exact .inr ⟨fun _ _ => id, fun op hi => (Slackens.aside (h.aside fun _ => False) hi id).toSpares⟩
  | launch _ n env token =>
    exact .inr ⟨fun t task ht => getElem?_launch_of_some ht _ n env token, fun op _ => .launch s op _ n env token⟩
  | spawn _ => exact .inr ⟨fun t task ht => getElem?_spawn_of_some ht _ _, fun op _ => .spawn s op _ _⟩
  | hold _ => exact .inr ⟨fun _ _ => id, fun op _ => .track s _ op⟩
  | spawnHeld _ _ => exact .inr ⟨fun t task ht => getElem?_spawn_of_some ht _ _, fun op _ => .spawn s op _ _⟩
  | @dropHeld k _ =>
    exact .inr ⟨fun t task ht => (congrArg (fun tasks => tasks[t]?) (s.tasks_untrack k)).trans ht,
      fun op _ => (Slackens.untrack s k op).toSpares⟩
  | newRegistry => exact .inr ⟨fun _ _ => id, fun op _ => .register s op (by simp)⟩
  | reset r =>
    have hnoted : s.world.Aside (fun _ => False) (s.world.record (.forgotten (s.inFlight r))) := .acts (.record _ _) (.of_eq rfl)
    exact .inr ⟨fun _ _ => id, fun op hi => .after hnoted hi id (.register { s with world := _ } op (by simp))⟩

/-- Tasks keep their operations and trackers, and those that have ended their jobs. -/
theorem Move.keeps (h : Move s s') (hs : s.Attained) {t : TaskId} {task : Task} (ht : s.tasks[t]? = some task) :
    ∃ j, s'.tasks[t]? = some { task with job := j } ∧ (task.job.hasEnded = true → j = task.job) := by
  rcases h.cases with ⟨u, turns, -, hn, rfl⟩ | ⟨htasks, -⟩
  · cases hu : s.tasks[u]? with
    | none =>
      rw [poll_none hu]
      exact ⟨task.job, ht, fun _ => rfl⟩
    | some other =>
      obtain ⟨v, ready, hdoes, hpoll⟩ := hs.polled hu hn
      rw [hpoll]
      by_cases heq : u = t
      · subst heq
        obtain rfl := Option.some.inj (hu.symm.trans ht)
        exact hdoes.self hu
      · exact ⟨task.job, hdoes.others (Ne.symm heq) ht, fun _ => rfl⟩
  · exact ⟨task.job, htasks t task ht, fun _ => rfl⟩

/-- A drain that stands in line before a tracker that is not closed and empty stays there when it is polled. -/
theorem Does.of_waits {t : TaskId} {op : OperationId} {k : TrackerId} {a : Action Unit} (h : s.Does t op (.draining k a) s')
    (hw : s.Waits k op t) : s' = s := by
  rcases h.of_draining with ⟨-, hsame⟩ | ⟨hcalled | hempty, -⟩
  · exact hsame
  · exact nomatch hw.line.symm.trans hcalled
  · exact nomatch hw.shut.symm.trans hempty

/-- A move is a poll of a task, or it leaves the task and its places as they are, unless their tracker has become empty. -/
theorem Move.elsewhere (h : Move s s') (hs : s.Attained) {t : TaskId} {task : Task} (ht : s.tasks[t]? = some task) :
    (∃ turns, t ∈ s.world.ready ∧ (∀ k, s.poll (turns + k) t = s.poll turns t) ∧ s' = s.poll turns t) ∨
      s'.tasks[t]? = some task ∧ ∀ k, s'.world.line k task.op = s.world.line k task.op ∨
        s'.world.line k task.op = [] ∧ (s'.tracker k).running = 0 := by
  have hlined := hs.lined
  have hissued := hlined.issued t task ht
  have spared {v : System} (hv : s.Spares task.op v) (k : TrackerId) :
      v.world.line k task.op = s.world.line k task.op ∨ v.world.line k task.op = [] ∧ (v.tracker k).running = 0 :=
    (hv.line k).imp And.left fun h => ⟨h.1, h.2.1⟩
  rcases h.cases with ⟨u, turns, hready, hn, rfl⟩ | ⟨htasks, hspares⟩
  · by_cases heq : u = t
    · exact .inl ⟨turns, heq ▸ hready, heq ▸ hn, heq ▸ rfl⟩
    · refine .inr ?_
      cases hu : s.tasks[u]? with
      | none =>
        rw [poll_none hu]
        exact ⟨ht, fun _ => .inl rfl⟩
      | some other =>
        obtain ⟨v, ready, hdoes, hpoll⟩ := hs.polled hu hn
        have howns : ¬ other.job.Owns other.op task.op := by
          rintro (hop | hop)
          · exact heq (hlined.own u t other task hu ht hop.symm)
          · exact hlined.apart t u task other.job ht (s.job?_eq hu) hop
        have hv : (s.onWorld (·.serving u)).Spares task.op v := hdoes.spares hu hissued howns
        rw [hpoll]
        exact ⟨hdoes.others (Ne.symm heq) ht, fun k => (hv.line k).imp And.left fun h => ⟨h.1, h.2.1⟩⟩
  · exact .inr ⟨htasks t task ht, spared (hspares _ hissued)⟩

/-- A drain that waits stays in line, or it is called and its tracker is empty. -/
theorem Move.waits (h : Move s s') (hs : s.Attained) {t : TaskId} {task : Task} (ht : s.tasks[t]? = some task)
    {k : TrackerId} {a : Action Unit} (hj : task.job = .draining k a) (hw : s.Waits k task.op t) :
    s'.tasks[t]? = some task ∧
      (s'.world.line k task.op = [t] ∨ s'.world.line k task.op = [] ∧ (s'.tracker k).running = 0) := by
  rcases h.elsewhere hs ht with ⟨turns, -, hn, rfl⟩ | ⟨htask, hline⟩
  · obtain ⟨v, ready, hdoes, hpoll⟩ := hs.polled ht hn
    rw [hj] at hdoes
    obtain rfl := hdoes.of_waits ⟨hw.line, hw.shut⟩
    rw [hpoll]
    exact ⟨ht, .inl hw.line⟩
  · exact ⟨htask, (hline k).imp_left (·.trans hw.line)⟩

end System

end Interruptible
