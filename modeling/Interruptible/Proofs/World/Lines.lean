import Interruptible.Proofs.Machine.Suspension

/-!
# The lines before trackers

Whoever waits for a tracker stands in a line (`World.line`), in a place that belongs to an operation. The place is given up when
the operation ends, or when the tracker is announced, which wakes the task that waits there. All else leaves it as it is:
whatever code does, and the poll of a process, which gives up and takes only places of the operations that it awaits
(`Process.poll_aside`).
-/

namespace Interruptible

namespace World

variable {w w' w₁ w₂ w₃ : World} {k : TrackerId} {op : OperationId}

/-- The tasks that wait for a tracker on behalf of an operation, in the order in which they came. -/
def line (w : World) (k : TrackerId) (op : OperationId) : List TaskId :=
  (w.waiters.filter fun x => x.signal == .tracker k && x.op == op).map (·.task)

/-- Lines are read off from those who wait. -/
theorem line_eq (h : w'.waiters = w.waiters) (k : TrackerId) (op : OperationId) : w'.line k op = w.line k op := by
  rw [line, line, h]

/-- An operation waits for a tracker if somebody stands in line on its behalf. -/
theorem isParked_eq (w : World) (k : TrackerId) (op : OperationId) : w.isParked (.tracker k) op = !(w.line k op).isEmpty := by
  rw [isParked, line, List.isEmpty_map, Bool.eq_iff_iff]
  simp

/-! ## What the operations of the world do to lines -/

/-- Whoever is called goes on waiting until it is polled. -/
theorem waiters_wake (w : World) (t : TaskId) : (w.wake t).waiters = w.waiters := by
  unfold wake
  split
  · rfl
  · split <;> rfl

/-- Calling the current task changes nothing in who waits. -/
theorem waiters_wakeCurrent (w : World) : w.wakeCurrent.waiters = w.waiters := by
  unfold wakeCurrent
  split
  · exact waiters_wake w _
  · rfl

/-- Calling several tasks changes nothing in who waits. -/
theorem waiters_foldl_wake {β : Type} (f : β → TaskId) (xs : List β) (w : World) :
    (xs.foldl (fun w x => w.wake (f x)) w).waiters = w.waiters := by
  induction xs generalizing w with
  | nil => rfl
  | cons x xs ih => rw [List.foldl_cons, ih, waiters_wake]

/-- Those who waited for what is announced wait no longer. -/
theorem waiters_emit (w : World) (s : Signal) : (w.emit s).waiters = w.waiters.filter (·.signal != s) := by
  unfold emit
  rw [waiters_foldl_wake]

/-- What is announced calls nobody who waits for something else. -/
theorem line_emit_of_ne (w : World) {s : Signal} (hs : s ≠ .tracker k) (op : OperationId) :
    (w.emit s).line k op = w.line k op := by
  rw [line, line, waiters_emit, List.filter_filter]
  congr 1
  refine List.filter_congr fun x _ => ?_
  by_cases hx : x.signal = .tracker k
  · simp [hx, Ne.symm hs]
  · simp [hx]

/-- A tracker that is announced calls all who wait for it. -/
theorem line_emit_self (w : World) (k : TrackerId) (op : OperationId) : (w.emit (.tracker k)).line k op = [] := by
  rw [line, waiters_emit, List.filter_filter, List.map_eq_nil_iff, List.filter_eq_nil_iff]
  intro x _
  by_cases hx : x.signal = .tracker k <;> simp [hx]

/-- Each of those who are called one after the other is awake. -/
theorem awake_foldl_wake {xs : List Waiter} {x : Waiter} (hx : x ∈ xs) (w : World) :
    (xs.foldl (fun w x => w.wake x.task) w).Awake x.task := by
  induction xs generalizing w with
  | nil => nomatch hx
  | cons y xs ih =>
    rcases List.mem_cons.mp hx with rfl | hx
    · exact (Acts.foldl_wake Waiter.task xs _).awake _ (w.awake_wake x.task)
    · exact ih hx _

/-- Whoever is called is awake. -/
theorem awake_emit {t : TaskId} (h : t ∈ w.line k op) : (w.emit (.tracker k)).Awake t := by
  obtain ⟨x, hx, rfl⟩ := List.mem_map.mp h
  obtain ⟨hx, hplace⟩ := List.mem_filter.mp hx
  exact awake_foldl_wake (List.mem_filter.mpr ⟨hx, (Bool.and_eq_true_iff.mp hplace).1⟩) _

/-- A place that is taken for something else, or on behalf of another operation, changes nothing in a line. -/
theorem line_park_of_ne (w : World) (s : Signal) {op op' : OperationId} (h : s ≠ .tracker k ∨ op' ≠ op) :
    (w.park s op').line k op = w.line k op := by
  unfold park
  split
  · rfl
  · split
    · rfl
    · have hno : ((s == .tracker k) && (op' == op)) = false := by
        rcases h with h | h <;> simp [h]
      simp [line, List.filter_append, hno]

/-- An operation that does not wait yet takes a place for the current task. -/
theorem line_park_self {t : TaskId} (ht : w.current = some t) (h : w.line k op = []) :
    (w.park (.tracker k) op).line k op = [t] := by
  have hparked : (w.waiters.any fun x => x.signal == .tracker k && x.op == op) = false := by
    have hempty := w.isParked_eq k op
    rw [h] at hempty
    exact hempty
  have hnobody : (w.waiters.filter fun x => x.signal == .tracker k && x.op == op) = [] := List.map_eq_nil_iff.mp h
  unfold park
  rw [ht]
  simp [line, hparked, List.filter_append, hnobody]

/-- An operation that is forgotten leaves only its own lines. -/
theorem line_forget_of_ne (w : World) {op op' : OperationId} (h : op' ≠ op) (k : TrackerId) :
    (w.forget op').line k op = w.line k op := by
  rw [line, line, forget, List.filter_filter]
  congr 1
  refine List.filter_congr fun x _ => ?_
  by_cases hx : x.op = op
  · simp [hx, Ne.symm h]
  · simp [hx]

/-! ## Lines that are left alone -/

/-- The lines are as they were, with exceptions for some operations. -/
def SameLines (except : OperationId → Prop) (w w' : World) : Prop := ∀ k op, ¬ except op → w'.line k op = w.line k op

namespace SameLines

variable {X : OperationId → Prop}

/-- Lines stay the same where those who wait do. -/
theorem of_eq (h : w'.waiters = w.waiters) : SameLines X w w' := fun k op _ => line_eq h k op

theorem refl (w : World) : SameLines X w w := of_eq rfl

theorem trans (h : SameLines X w₁ w₂) (h' : SameLines X w₂ w₃) : SameLines X w₁ w₃ := fun k op hop =>
  (h' k op hop).trans (h k op hop)

/-- What is announced changes no line, unless it is a tracker. -/
theorem emit (w : World) {s : Signal} (hs : ∀ k, s ≠ .tracker k) : SameLines X w (w.emit s) := fun k op _ =>
  w.line_emit_of_ne (hs k) op

/-- Opening a gate changes no line. -/
theorem openGate (w : World) (g : String) : SameLines X w (w.openGate g) := by
  unfold World.openGate
  split
  · exact refl w
  · exact (of_eq rfl).trans (emit { w with openGates := g :: w.openGates } fun k h => nomatch h)

/-- Subscribing to a token changes no line. -/
theorem subscribe (w : World) (t : TokenId) (r : Reaction) : SameLines X w (w.subscribe t r).2 := by
  unfold World.subscribe
  split
  · exact refl w
  · split
    · exact refl w
    · exact of_eq rfl

/-- Adding a hook changes no line. -/
theorem addHook (w : World) (op : OperationId) (l : Listener) : SameLines X w (w.addHook op l).2 := by
  unfold World.addHook
  split
  · exact refl w
  · exact of_eq rfl

/-- Calling the task of an operation changes no line. -/
theorem wakeOperation (w : World) (op : OperationId) : SameLines X w (w.wakeOperation op) := by
  unfold World.wakeOperation
  split
  · exact of_eq (waiters_wake w _)
  · exact refl w

/-- Only the operation on whose behalf a place is taken is an exception. -/
theorem park (w : World) (s : Signal) (hop : X op) : SameLines X w (w.park s op) := fun _ o ho =>
  w.line_park_of_ne s (.inr fun (h : op = o) => ho (h ▸ hop))

/-- Only the operation that is forgotten is an exception. -/
theorem forget (w : World) (hop : X op) : SameLines X w (w.forget op) := fun k o ho =>
  w.line_forget_of_ne (fun (h : op = o) => ho (h ▸ hop)) k

/-- Starting a timer changes no line. -/
theorem startTimer (w : World) (deadline : Nat) (op : OperationId) : SameLines X w (w.startTimer deadline op) := by
  unfold World.startTimer
  split
  · exact refl w
  · exact of_eq rfl

/-- The passage of time changes no line: whoever waits for a tracker waits for no timer. -/
theorem advanceTo (w : World) (time : Nat) : SameLines X w (w.advanceTo time) :=
  of_eq (waiters_foldl_wake Timer.task _ { w with now := time, timers := w.timers.filter (time < ·.deadline) })

/-- Marking a token as tripped changes no line. -/
theorem trip? {t : TokenId} {reactions : List Reaction} (h : w.trip? t = some (reactions, w')) : SameLines X w w' := by
  unfold World.trip? at h
  split at h
  · nomatch h
  · split at h
    · nomatch h
    · obtain ⟨-, rfl⟩ := Prod.mk.inj (Option.some.inj h)
      have hsignal : ∀ k, Signal.token t ≠ .tracker k := fun _ h => nomatch h
      exact (of_eq rfl).trans ((emit (w.modifyToken t _) hsignal).trans (of_eq rfl))

end SameLines

variable {X : OperationId → Prop}

/-- No command that code can give changes a line. -/
theorem sameLines_obeyed (X : OperationId → Prop) : Obeyed (SameLines X) where
  refl := .refl
  trans _ _ _ := .trans
  kept _ _ _ _ _ := .of_eq rfl
  record _ _ := .of_eq rfl
  openGate := .openGate
  subscribe w t l := .subscribe w t (.call l)
  withdraw _ _ := .of_eq rfl
  addHook := .addHook

end World

section

variable {X : OperationId → Prop} {trip : Tripping} (ht : ∀ t w, World.SameLines X w (trip t w))

include ht

/-- A reaction changes no line, if the trips it brings about do not. -/
theorem Reaction.run_sameLines (r : Reaction) (w : World) : World.SameLines X w (r.run trip w) := by
  cases r with
  | call l => exact l.invoke_obeys (World.sameLines_obeyed X) ht w
  | forward child => exact ht child w
  | stop op =>
    have htake : World.SameLines X w (w.takeHooks op).2 := .of_eq rfl
    have hhooks := Listener.foldl_invoke_obeys (World.sameLines_obeyed X) ht (w.takeHooks op).1 (w.takeHooks op).2
    exact (htake.trans hhooks).trans (.wakeOperation _ op)

/-- Reactions change no line, if the trips they bring about do not. -/
theorem Reaction.foldl_run_sameLines (rs : List Reaction) (w : World) :
    World.SameLines X w (rs.foldl (fun w r => r.run trip w) w) := by
  induction rs generalizing w with
  | nil => exact .refl w
  | cons r rs ih => exact (r.run_sameLines ht w).trans (ih _)

end

namespace World

variable {X : OperationId → Prop}

/-- A trip changes no line. -/
theorem trip_sameLines (n : Nat) (t : TokenId) (w : World) : SameLines X w (trip n t w) := by
  induction n generalizing t w with
  | zero => exact .refl w
  | succ n ih =>
    simp only [trip]
    split
    · exact .refl w
    · rename_i reactions w' h
      exact (SameLines.trip? h).trans (Reaction.foldl_run_sameLines ih reactions w')

/-- Interrupting a token changes no line. -/
theorem interrupt_sameLines (t : TokenId) (w : World) : SameLines X w (w.interrupt t) := trip_sameLines _ t w

/-- Subscribing to a token changes no line, also when the reaction is carried out at once. -/
theorem react_sameLines (w : World) (t : TokenId) (r : Reaction) : SameLines X w (w.react t r).2 := by
  have hs : SameLines X w (w.subscribe t r).2 := .subscribe w t r
  unfold react
  split <;> rename_i h <;> rw [h] at hs
  · exact hs
  · exact hs.trans (Reaction.run_sameLines interrupt_sameLines r _)

end World

/-- Actions of code change no line. -/
theorem Action.run_sameLines {α : Type} {X : OperationId → Prop} (a : Action α) (w : World) : World.SameLines X w (a.run w).2 :=
  a.run_obeys (World.sameLines_obeyed X) World.interrupt_sameLines w

/-- A poll of a future is about the places of its own operation. -/
theorem Future.poll_sameLines {X : OperationId → Prop} {op : OperationId} (hop : X op) (f : Future) (w : World) :
    World.SameLines X w (f.poll op w).2 :=
  f.poll_obeys (World.sameLines_obeyed X) World.interrupt_sameLines (fun w s => .park w s hop)
    (fun w deadline => .startTimer w deadline op) (fun w => .of_eq w.waiters_wakeCurrent) w

/-- A turn is about the places of the operations that are awaited. -/
theorem World.sameLines_turned (X : OperationId → Prop) : World.Turned X (World.SameLines X) where
  toObeyed := sameLines_obeyed X
  interrupt := interrupt_sameLines
  wakeCurrent w := .of_eq w.waiters_wakeCurrent
  newToken _ := .of_eq rfl
  grouped t w := (SameLines.of_eq rfl).trans (w.newToken.2.react_sameLines t _)
  awaited t w := (SameLines.of_eq rfl).trans (w.newOperation.2.react_sameLines t _)
  unsubscribe _ _ := .of_eq rfl
  polled w op f hop := (SameLines.of_eq rfl).trans (f.poll_sameLines hop (w.attend op))
  forget w _ := .forget w

/-! ## What goes on aside -/

/-- Nobody waits on behalf of an operation that has not begun. -/
def World.Unplaced (w : World) : Prop := ∀ op, ¬ w.Issued (.operation op) → ∀ k, w.line k op = []

/-- What goes on aside from those who wait in line, with exceptions for some operations: places stay, tasks that are awake stay
so, and no place is taken on behalf of an operation that has not begun. -/
structure World.Aside (except : OperationId → Prop) (w w' : World) : Prop where
  current : w'.current = w.current
  awake : ∀ t, w.Awake t → w'.Awake t
  issued : ∀ op, w.Issued (.operation op) → w'.Issued (.operation op)
  line : ∀ k op, w.Issued (.operation op) → ¬ except op → w'.line k op = w.line k op
  unplaced : w.Unplaced → w'.Unplaced

namespace World.Aside

variable {w w' w₁ w₂ w₃ : World} {X Y : OperationId → Prop}

/-- Exceptions are only made for operations that have begun. -/
theorem of_faithful {Z : Stake → Prop} (h : World.Faithful Z w w') (hline : SameLines X w w')
    (hX : ∀ op, X op → w'.Issued (.operation op)) : Aside X w w' where
  current := h.current
  awake := h.awake
  issued _ := h.issued
  line k op _ hop := hline k op hop
  unplaced hw op hop k := by
    rw [hline k op fun hx => hop (hX op hx)]
    exact hw op (fun hi => hop (h.issued hi)) k

theorem refl (w : World) : Aside X w w where
  current := rfl
  awake _ h := h
  issued _ h := h
  line _ _ _ _ := rfl
  unplaced h := h

/-- What goes on aside twice does so, if the exceptions of the second time were exceptions before or have only begun since. -/
theorem trans (h : Aside X w₁ w₂) (h' : Aside Y w₂ w₃) (hY : ∀ op, w₁.Issued (.operation op) → Y op → X op) : Aside X w₁ w₃ where
  current := h'.current.trans h.current
  awake t ht := h'.awake t (h.awake t ht)
  issued op hop := h'.issued op (h.issued op hop)
  line k op hi hop := (h'.line k op (h.issued op hi) fun hy => hop (hY op hi hy)).trans (h.line k op hi hop)
  unplaced hw := h'.unplaced (h.unplaced hw)

theorem mono (h : Aside X w w') (hX : ∀ op, X op → Y op) : Aside Y w w' where
  current := h.current
  awake := h.awake
  issued := h.issued
  line k op hi hop := h.line k op hi fun hx => hop (hX op hx)
  unplaced := h.unplaced

/-- What code does concerns nobody who waits in line. -/
theorem acts (h : World.Acts w w') (hline : SameLines (fun _ => False) w w') : Aside X w w' :=
  (of_faithful h.toFaithful hline fun _ => False.elim).mono fun _ => False.elim

/-- What is done for an operation that has begun. -/
theorem of_own {op : OperationId} (h : World.Acts w w') (hline : SameLines (· = op) w w') (hi : w.Issued (.operation op))
    (hop : X op) : Aside X w w' :=
  (of_faithful h.toFaithful hline fun _ ho => h.issued (ho ▸ hi)).mono fun _ ho => ho ▸ hop

end World.Aside

namespace Process

variable {s : TokenId} {p : Process} {w : World}

/-- A turn goes on aside from all those who wait on behalf of operations that are not the process's own. -/
theorem turn_aside (hw : w.KeysSound) (h : p.Holding w s) :
    World.Aside (fun op => .operation op ∈ p.stakes) w (p.turn w).world := by
  have hfaithful := (turn_holds hw h).faithful
  have hline := p.turn_respects (World.sameLines_turned _) w fun _ => id
  exact .of_faithful hfaithful hline fun op hop => hfaithful.issued (h.issued _ hop)

/-- The poll of a process concerns the operations that it awaits, and those that it begins: an operation that it awaits after a turn
is one that it awaited before, or the turn has begun it. -/
theorem poll_aside (n : Nat) (hw : w.KeysSound) (h : p.Holding w s) :
    World.Aside (fun op => .operation op ∈ p.stakes) w (p.poll n w).2 := by
  induction n generalizing p w with
  | zero => exact .refl w
  | succ n ih =>
    have hholds := turn_holds hw h
    have hturn := turn_aside hw h
    have hholding := h.after hholds
    have hkeys := hholds.faithful.keysSound hw
    have hstakes : ∀ op, w.Issued (.operation op) → .operation op ∈ (p.turn w).process.stakes → .operation op ∈ p.stakes :=
      fun op hi hop => (hholds.renews.mem hop).resolve_right fun hnew => hnew.1 hi
    unfold poll
    split <;> rename_i ht <;> rw [ht] at hturn
    · exact hturn
    · exact hturn
    · rw [ht] at hholding hkeys hstakes
      exact hturn.trans (ih hkeys hholding) hstakes

end Process

end Interruptible
