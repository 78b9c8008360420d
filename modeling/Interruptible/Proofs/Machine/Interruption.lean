import Interruptible.Proofs.Machine.Calls
import Interruptible.Proofs.Machine.CancelledGroups

/-!
# Interrupted interpreters unwind

An interpreter notices interruption in one of a few ways (`Process.Notices`). From then on it takes no node and calls none of
the continuations and handlers on its stack. It runs the finalizers that have been attached and not started, the one attached
last first, each of them in the environment that was in force where it was attached, and settles with interruption, followed
by the causes with which these finalizers have failed (`interrupted_unwinding`).

Which finalizers are left is told twice: `History.attached` keeps the books over the turns in which finalizers are attached
and popped, and `Process.attachments` reads the finalizers and their environments off the frames. The two agree all along.
-/

namespace Interruptible

/-- A turn in which an interpreter notices interruption, by the way in which it does. -/
inductive Process.Notices : Process → World → Prop where
  /-- The token has been tripped when the next node is to be taken. -/
  | checked {m : Interpreter} {n : Node} {w : World} (ht : w.isInterrupted m.token = true) : Notices (.counted m n) w
  /-- The node that is taken is an interrupt node. -/
  | node (m : Interpreter) (w : World) : Notices (.counted m .interrupt) w
  /-- A host future is to be awaited, and the token does not take the subscription that would stop it. -/
  | refused {m : Interpreter} {factory : OperationId → Action Future} {onReject : Value → Action (Cause Value)} {w : World}
      (hr : ∀ x, w.tokens[m.token]? = some x → x.interrupted = true) : Notices (.counted m (.liftPromise factory onReject)) w
  /-- The host future that is awaited has been stopped. -/
  | stopped {m : Interpreter} {a : Awaited} {w : World} (hf : w.isFired a.op = true) : Notices (.awaiting m a) w
  /-- A group has been joined, and the token has been tripped. -/
  | joined {m : Interpreter} {g : Group} {seen : List Branch} {exits : List (Exit Value Payload)} {w : World}
      (hexits : seen.reverse = exits.map .finished)
      (ht : (g.unlink (g.afterRound seen.reverse w)).isInterrupted m.token = true) : Notices (.joining m g seen []) w
  /-- A group has been joined, and those of its branches that failed were interrupted. -/
  | branches {m : Interpreter} {g : Group} {seen : List Branch} {exits : List (Exit Value Payload)} {w : World}
      (hexits : seen.reverse = exits.map .finished) (hv : Verdict.ofExits exits = .interrupted) :
      Notices (.joining m g seen []) w

/-- A finalizer, with the environment that was in force where it was attached. -/
structure Attachment where
  finalizer : Node
  env : Environment

/-- The finalizers among frames that are popped in an environment, each with the environment that it is then popped in. -/
def Frame.attachments : Environment → List Frame → List Attachment
  | _, [] => []
  | env, .finalize n :: fs => { finalizer := n, env } :: attachments env fs
  | _, .restore env :: fs => attachments env fs
  | env, .apply _ :: fs | env, .fold _ _ :: fs => attachments env fs

/-- The finalizers that an interpreter has still to start, the first one first. -/
def Process.attachments : Process → List Attachment
  | .next m _ | .counted m _ | .popping m _ | .finalizing m _ _ | .awaiting m _ | .joining m _ _ _ =>
    Frame.attachments m.env m.frames.frames
  | .settled _ => []

/-- The finalizers that an interpreter has still to start are those among its frames. -/
theorem Process.attachments_eq {p : Process} {m : Interpreter} (h : p.interpreter? = some m) :
    p.attachments = Frame.attachments m.env m.frames.frames := by
  cases p with
  | settled e => nomatch h
  | _ =>
    obtain rfl := Option.some.inj h
    rfl

/-- What a turn makes of the finalizers that are attached: taking a node attaches its finalizer, and popping the frame of a
finalizer strikes it off. -/
def Process.attach (p : Process) (w : World) (attached : List Attachment) : List Attachment :=
  match p with
  | .counted m n =>
    if w.isInterrupted m.token then attached
    else
      match n with
      | .ensuring _ finalizer => { finalizer, env := m.env } :: attached
      | _ => attached
  | .popping m _ =>
    match m.frames.frames with
    | .finalize _ :: _ => attached.tail
    | _ => attached
  | _ => attached

/-- The finalizers that have been attached in the course of some turns and whose frames have not been popped, the last one
first. -/
def History.attached (h : History) : List Attachment := h.foldl (fun attached y => y.1.attach y.2 attached) []

/-- Something that happens to the finalizers of an interpreter. -/
inductive FinalizerEvent where
  /-- A finalizer has been started as an interpreter of its own. -/
  | started (a : Attachment)
  /-- The finalizer at work has come to its exit. -/
  | ended (e : Exit Value Payload)

/-- What a turn does to the finalizers of an interpreter. -/
def Process.finalizerEvent? (p : Process) (w : World) : Option FinalizerEvent :=
  match p, (p.turn w).process with
  | .finalizing _ _ (.settled e), _ => some (.ended e)
  | .popping _ _, .finalizing _ _ (.next m n) => some (.started { finalizer := n, env := m.env })
  | _, _ => none

/-- What has happened to the finalizers of an interpreter in the course of its turns. -/
def History.finalizerEvents (h : History) : List FinalizerEvent := h.filterMap fun y => y.1.finalizerEvent? y.2

/-- A process has come from the start of a finalizer in its environment, by turns that are found among others. -/
def Attachment.Reaches (among : History) (a : Attachment) (p : Process) : Prop :=
  ∃ (t : TokenId) (k : Nat), Process.Traced among (.start a.finalizer a.env t k) p

/-- Whether a turn of an interpreter is its own work, and not that of a finalizer that it waits for. -/
def Process.works : Process → Bool
  | .finalizing _ _ child => child.exit?.isSome
  | _ => true

/-- The turns of its own that an unwinding interpreter has still to take: it pops its frames, takes note of the exit of each
finalizer, and settles. -/
def Process.remaining : Process → Nat
  | .settled _ => 0
  | .finalizing m _ _ => m.frames.frames.length + (Frame.attachments m.env m.frames.frames).length + 2
  | p => p.frames.length + p.attachments.length + 1

/-- How far an unwinding interpreter has come with the finalizers that it has to run: some have come to their exits, one may be
at work, and the others wait for their turn. -/
structure Cleanup where
  ended : List (Attachment × Exit Value Payload) := []
  busy : Option Attachment := none
  waiting : List Attachment

namespace Cleanup

/-- All finalizers to run, in their order. -/
def all (c : Cleanup) : List Attachment := c.ended.map (·.1) ++ c.busy.toList ++ c.waiting

/-- What has happened so far: one finalizer has been started after the other, and only after the one before had ended. -/
def events (c : Cleanup) : List FinalizerEvent :=
  c.ended.flatMap (fun r => [.started r.1, .ended r.2]) ++ c.busy.toList.map .started

/-- The causes with which finalizers have failed, in the order in which they have run. -/
def failures (c : Cleanup) : List (Cause Value) := c.ended.filterMap (·.2.cause?)

end Cleanup

/-- An interpreter has come from `p`, where it had just noticed interruption, to `q`, and has got so far with its finalizers. -/
structure History.Unwinds (later : History) (p q : Process) (c : Cleanup) : Prop where
  /-- It pops frames and waits for finalizers, and takes no node. -/
  popping : ∀ y ∈ later, ∃ m, y.1.Pops m .interruption
  /-- It calls none of its callbacks: whatever is called, the finalizer at work calls. -/
  quiet : ∀ y ∈ later, y.1.calls y.2 = ((y.1.finalizer?).map (·.calls y.2)).getD []
  /-- The finalizers are run in their order, one at a time. -/
  events : later.finalizerEvents = c.events
  /-- Each of them has run from its node, in its environment, to its exit. -/
  ran : ∀ r ∈ c.ended, r.1.Reaches later.turns (.settled r.2)
  /-- The interpreter waits for the one at work. -/
  atWork : match q.finalizer? with
    | none => c.busy = none
    | some child => ∃ a, c.busy = some a ∧ a.Reaches later.turns child
  /-- Apart from what its finalizers do it comes to its end: it takes the turns that remain, and no more. -/
  steps : (later.filter (·.1.works)).length + q.remaining = p.remaining
  /-- By the time it settles, every finalizer has run to its exit. -/
  complete : q.exit? ≠ none → c.busy = none ∧ c.waiting = []
  /-- It settles with interruption and the causes of the finalizers that have failed, in the order in which they have run. -/
  exit : ∀ x, q = .settled x → x = .failure (Cause.interrupt.andThen (c.failures.foldl Cause.andThen .empty))
  /-- If none of them has failed with a cause that is not empty, that is interruption alone. -/
  plain : ∀ x, q = .settled x → (∀ fc ∈ c.failures, fc.isEmpty = true) → x = .interrupted

/-- How an interpreter has gone on since it noticed interruption, for the turns of an interpreter that have led to `q`. -/
structure History.UnwindsExactly (h : History) (q : Process) : Prop where
  /-- The turns in which interruption is noticed are those in which the interpreter starts to unwind. -/
  noticed : ∀ y ∈ h, y.1.Notices y.2 ↔
    ¬ y.1.Interrupted ∧ ∃ m, (y.1.turn y.2).process = .popping m .interruption
  /-- An interpreter that unwinds has noticed interruption before. -/
  entered : ∀ i p w m, h[i]? = some (p, w) → Process.Pops m .interruption p →
    ∃ (j : Nat) (y : Process × World), j < i ∧ h[j]? = some y ∧ y.1.Notices y.2
  /-- From then on it unwinds: the finalizers that are attached are run, and that is all. -/
  unwinds : ∀ i y, h[i]? = some y → y.1.Notices y.2 →
    ∃ c : Cleanup, History.attached (h.take i) = c.all ∧ History.Unwinds (h.drop (i + 1)) (y.1.turn y.2).process q c

/-! ## Noticing -/

/-- A token takes every reaction until it is tripped. -/
theorem World.react_eq_none (w : World) (t : TokenId) (r : Reaction) :
    (w.react t r).1 = none ↔ ∀ x, w.tokens[t]? = some x → x.interrupted = true := by
  have hsubscribe : (w.subscribe t r).1 = none ↔ ∀ x, w.tokens[t]? = some x → x.interrupted = true := by
    unfold World.subscribe
    cases ht : w.tokens[t]? with
    | none => simp
    | some x => cases hx : x.interrupted <;> simp [hx]
  rw [← hsubscribe]
  unfold World.react
  split <;> rename_i h <;> rw [h]

namespace Interpreter

/-- A future is not awaited if and only if the token does not take the subscription. -/
theorem await_popping (m : Interpreter) (factory : OperationId → Action Future) (onReject : Value → Action (Cause Value))
    (w : World) :
    ((∃ m', (m.await factory onReject w).process = .popping m' .interruption) →
        ∀ x, w.tokens[m.token]? = some x → x.interrupted = true) ∧
      ((∀ x, w.tokens[m.token]? = some x → x.interrupted = true) →
        (m.await factory onReject w).process = .popping m .interruption) := by
  have hreact := World.react_eq_none w.newOperation.2 m.token (.stop w.newOperation.1)
  change _ ↔ ∀ x, w.tokens[m.token]? = some x → _ at hreact
  rw [← hreact]
  unfold await
  dsimp only
  split
  · rename_i w' hr
    exact ⟨fun _ => by rw [hr], fun _ => rfl⟩
  · rename_i s w' hr
    rw [hr]
    refine ⟨fun ⟨m', h⟩ => ?_, nofun⟩
    split at h <;> nomatch h

/-- Of all nodes, an interrupt node and a host future whose token does not take the subscription make an interpreter unwind. -/
theorem take_popping (m : Interpreter) (n : Node) (w : World) (h : ∃ m', (m.take n w).process = .popping m' .interruption) :
    Process.Notices (.counted m n) w := by
  obtain ⟨m', h⟩ := h
  have htaken := m.take_taken n w
  rw [h] at htaken
  cases htaken with
  | popping hn ho => exact absurd rfl ho
  | interrupt => exact .node m w
  | refused factory onReject => exact .refused ((m.await_popping _ _ (w.record _)).1 ⟨m, h⟩)

/-- A poll of a future comes to interruption only if the operation has been stopped. -/
theorem pollAwaited_popping (m : Interpreter) (a : Awaited) (w : World)
    (h : ∃ m', (m.pollAwaited a w).process = .popping m' .interruption) : w.isFired a.op = true := by
  obtain ⟨m', h⟩ := h
  unfold pollAwaited at h
  split at h
  · assumption
  · split at h <;> nomatch h

/-- A group comes to interruption if its surroundings have been tripped, or if nothing worse than interruption has come of its
branches. -/
theorem joined_popping (m : Interpreter) (g : Group) (exits : List (Exit Value Payload)) (w : World) :
    (∃ m', (m.joined g exits w).process = .popping m' .interruption) ↔
      (g.unlink w).isInterrupted m.token = true ∨ Verdict.ofExits exits = .interrupted := by
  rw [joined_eq]
  split
  · rename_i ht
    exact ⟨fun _ => .inl ht, fun _ => ⟨m, rfl⟩⟩
  · rename_i ht
    split
    · rename_i hv
      rw [hv]
      exact ⟨nofun, fun h => h.elim (absurd · ht) nofun⟩
    · rename_i hv
      rw [hv]
      exact ⟨nofun, fun h => h.elim (absurd · ht) nofun⟩
    · rename_i hv
      exact ⟨fun _ => .inr hv, fun _ => ⟨m, rfl⟩⟩

end Interpreter

/-- An interpreter that notices interruption starts to unwind in that turn, with the frames that it has. -/
theorem Process.Notices.unwinds {p : Process} {w : World} (h : p.Notices w) :
    ¬ p.Interrupted ∧ ∃ m, p.interpreter? = some m ∧ (p.turn w).process = .popping m .interruption := by
  cases h with
  | @checked m n _ ht =>
    refine ⟨id, m, rfl, ?_⟩
    simp only [turn, ht, if_true]
    rfl
  | node m w =>
    refine ⟨id, m, rfl, ?_⟩
    simp only [turn]
    split <;> rfl
  | @refused m factory onReject _ hr =>
    refine ⟨id, m, rfl, ?_⟩
    simp only [turn]
    split
    · rfl
    · exact (m.await_popping factory onReject (w.record _)).2 hr
  | @stopped m a _ hf =>
    refine ⟨id, m, rfl, ?_⟩
    simp only [turn, Interpreter.pollAwaited, hf, if_true]
    rfl
  | @joined m g seen exits _ hexits ht =>
    refine ⟨id, m, rfl, ?_⟩
    rw [turn_joined hexits, Interpreter.joined_eq, if_pos ht]
    rfl
  | @branches m g seen exits _ hexits hv =>
    refine ⟨id, m, rfl, ?_⟩
    rw [turn_joined hexits, Interpreter.joined_eq, hv]
    split <;> rfl

/-- An interpreter that pops frames and waits for no finalizer. -/
theorem Process.Pops.eq_popping {p : Process} {m : Interpreter} {o : Outcome} (h : p.Pops m o) (hf : p.finalizer? = none) :
    p = .popping m o := by
  match p, h with
  | .popping _ _, ⟨rfl, rfl⟩ => rfl
  | .finalizing _ _ _, _ => nomatch hf

/-- An interpreter that pops frames with interruption has been interrupted. -/
theorem Process.Pops.interrupted {p : Process} {m : Interpreter} (h : p.Pops m .interruption) : p.Interrupted := by
  match p, h with
  | .popping _ _, ⟨_, rfl⟩ => trivial
  | .finalizing _ _ _, ⟨_, rfl⟩ => trivial

/-- No frame turns another outcome into interruption. -/
theorem Interpreter.interruption_of_pop {m m' : Interpreter} {o : Outcome} {w : World}
    (h : (m.pop o w).process.Pops m' .interruption) : o = .interruption := by
  cases hf : m.frames.frames with
  | nil =>
    rw [Interpreter.pop_nil hf] at h
    exact h.elim
  | cons f fs =>
    obtain ⟨s', hpop, -⟩ := FrameStack.pop?_eq_some hf
    simp only [Interpreter.pop, hpop] at h
    cases f with
    | finalize n => exact h.2
    | restore env => exact h.2
    | apply k =>
      cases o with
      | value p => exact h.elim
      | failure c => exact h.2
      | interruption => rfl
    | fold recover k =>
      cases o with
      | value p => exact h.elim
      | failure c => exact h.elim
      | interruption => rfl

/-- Nor does a finalizer, at work or at its end. -/
theorem Process.interruption_of_finalizing {m m' : Interpreter} {o : Outcome} {child : Process} {w : World}
    (h : (Process.turn (.finalizing m o child) w).process.Pops m' .interruption) : o = .interruption := by
  cases hx : child.exit? with
  | none =>
    rw [turn_finalizing m o hx] at h
    exact h.2
  | some e =>
    obtain rfl := exit?_eq_some hx
    cases e with
    | success p => exact h.2
    | failure fc =>
      cases o with
      | value p => exact h.elim
      | failure c => cases h.2
      | interruption => rfl

/-- There is no other way to start to unwind. -/
theorem Process.Notices.of_pops {p : Process} {w : World} {m : Interpreter} (hp : ¬ p.Interrupted)
    (h : (p.turn w).process.Pops m .interruption) : p.Notices w := by
  cases p with
  | next m' n =>
    rw [(turn_next m' n w).1] at h
    exact h.elim
  | counted m' n =>
    simp only [turn] at h
    split at h
    · rename_i ht
      exact .checked ht
    · exact m'.take_popping n w ⟨m, h.eq_popping (m'.take_frames n w).1⟩
  | popping m' o =>
    obtain rfl := Interpreter.interruption_of_pop h
    exact absurd trivial hp
  | finalizing m' o child =>
    obtain rfl := interruption_of_finalizing h
    exact absurd trivial hp
  | awaiting m' a =>
    exact .stopped (m'.pollAwaited_popping a w ⟨m, h.eq_popping (m'.pollAwaited_waited a w).frames.1⟩)
  | joining m' g seen rest =>
    rcases rest with _ | ⟨q | e, rest⟩
    · simp only [turn, Interpreter.endRound_eq] at h
      split at h
      · rename_i hall
        have hexits := Branch.eq_map_finished hall
        rcases (m'.joined_popping g _ _).mp ⟨m, h.eq_popping (m'.joined_waited g _ _).frames.1⟩ with ht | hv
        · exact .joined hexits ht
        · exact .branches hexits hv
      · exact h.elim
    · simp only [turn] at h
      split at h <;> exact h.elim
    · exact h.elim
  | settled e => exact absurd trivial hp

/-- Who unwinds at the end of a run and did not at its beginning has noticed interruption in between. -/
theorem Process.Run.noticed {R : World → World → Prop} {p q : Process} {w v : World} {h : History} {m : Interpreter}
    (run : Run R p w h q v) (hp : ¬ p.Interrupted) (hq : q.Pops m .interruption) :
    ∃ (j : Nat) (y : Process × World), h[j]? = some y ∧ y.1.Notices y.2 := by
  induction run with
  | done p w => exact absurd hq.interrupted hp
  | @turn p q w v h hx run ih =>
    by_cases hturn : (p.turn w).process.Interrupted
    · cases hx' : (p.turn w).process.exit? with
      | none =>
        obtain ⟨m', hm'⟩ := pops_of_interrupted hturn hx'
        exact ⟨0, (p, w), rfl, .of_pops hp hm'⟩
      | some x =>
        obtain ⟨-, rfl⟩ := run.of_settled (exit?_eq_some hx')
        exact hq.elim
    · obtain ⟨j, y, hj, hy⟩ := ih hturn hq
      exact ⟨j + 1, y, hj, hy⟩
  | moved _ _ ih => exact ih hp hq

/-- What an interpreter has noticed in the course of some turns: it unwinds if it has noticed interruption, and not before. -/
def Process.Noticing (since : History) (p : Process) : Prop :=
  (p.Interrupted → ∃ y ∈ since, y.1.Notices y.2) ∧ (¬ p.Interrupted → ∀ y ∈ since, ¬ y.1.Notices y.2)

/-- What has been noticed so far takes account of the next turn, unless the process settles with it. -/
theorem Process.Noticing.turn {since : History} {p : Process} {w : World} (hp : p.Noticing since)
    (hx : (p.turn w).process.exit? = none) : (p.turn w).process.Noticing (since ++ [(p, w)]) := by
  by_cases hi : p.Interrupted
  · obtain ⟨y, hy, hn⟩ := hp.1 hi
    exact ⟨fun _ => ⟨y, List.mem_append_left _ hy, hn⟩, fun h => absurd (turn_interrupted hi w) h⟩
  · refine ⟨fun h => ?_, fun h y hy => ?_⟩
    · obtain ⟨m, hm⟩ := Run.pops_of_interrupted h hx
      exact ⟨(p, w), List.mem_append_right _ List.mem_cons_self, .of_pops hi hm⟩
    · rcases List.mem_append.mp hy with hy | hy
      · exact hp.2 hi y hy
      · rw [List.mem_singleton.mp hy]
        intro hn
        obtain ⟨-, m, -, hturn⟩ := hn.unwinds
        exact h (by rw [hturn]; trivial)

/-! ## Keeping the books -/

namespace Interpreter

variable (m : Interpreter) (w : World)

/-- Taking a node attaches its finalizer, if it has one. -/
theorem take_attachments (n : Node) (ho : w.isInterrupted m.token = false) :
    (m.take n w).process.attachments = (Process.counted m n).attach w (Frame.attachments m.env m.frames.frames) := by
  simp only [Process.attach, ho]
  unfold take
  dsimp only
  split
  · rfl
  · split <;> rfl
  · rename_i inner k hs hl
    cases inner <;> rfl
  · rfl
  · rfl
  · rfl
  · split <;> rfl
  · rfl
  · rfl
  · rfl
  · rfl
  · rfl
  · unfold await
    dsimp only
    split
    · rfl
    · split <;> rfl
  · rfl

/-- Popping a frame detaches its finalizer, if it is one. -/
theorem pop_attachments (o : Outcome) :
    (m.pop o w).process.attachments = (Process.popping m o).attach w (Frame.attachments m.env m.frames.frames) := by
  cases hf : m.frames.frames with
  | nil =>
    rw [pop_nil hf]
    simp only [Process.attach, hf]
    rfl
  | cons f fs =>
    obtain ⟨s', hpop, hfs⟩ := FrameStack.pop?_eq_some hf
    simp only [pop, hpop, Process.attach, hf]
    cases f <;> cases o <;> simp only [← hfs] <;> rfl

/-- A finalizer that settles attaches and detaches nothing. -/
theorem finalized_attachments (o : Outcome) (e : Exit Value Payload) :
    (m.finalized o e w).process.attachments = Frame.attachments m.env m.frames.frames := by
  cases e with
  | success p => rfl
  | failure c => cases o <;> rfl

/-- An interpreter that waits for its finalizer, its future or its group has the same finalizers attached. -/
theorem Waited.attachments {m : Interpreter} {p : Process} (h : m.Waited p) :
    p.attachments = Frame.attachments m.env m.frames.frames := by
  cases h <;> rfl

end Interpreter

/-- The frames are in accord with the books after a turn if they were before. -/
theorem Process.turn_attachments (p : Process) (w : World) :
    (p.turn w).process.attachments = p.attach w p.attachments := by
  cases p with
  | next m n =>
    rw [(turn_next m n w).1]
    rfl
  | counted m n =>
    cases ho : w.isInterrupted m.token with
    | true =>
      simp only [turn, ho, if_true, Process.attach]
      rfl
    | false =>
      rw [turn_counted ho]
      exact m.take_attachments w n ho
  | popping m o => exact m.pop_attachments w o
  | finalizing m o child =>
    cases hx : child.exit? with
    | none =>
      rw [turn_finalizing m o hx]
      rfl
    | some e =>
      obtain rfl := exit?_eq_some hx
      exact m.finalized_attachments w o e
  | awaiting m a => exact (m.pollAwaited_waited a w).attachments
  | joining m g seen rest =>
    rcases rest with _ | ⟨q | e, rest⟩
    · exact (m.endRound_waited g _ w).attachments
    · simp only [turn]
      split <;> rfl
    · rfl
  | settled e => rfl

/-- The finalizers that have been attached in the course of a run and not popped are those among the frames. -/
theorem Process.Run.attached {R : World → World → Prop} {n : Node} {env : Environment} {t : TokenId} {k : Nat} {w v : World}
    {h : History} {q : Process} (run : Run R (.start n env t k) w h q v) : h.attached = q.attachments := by
  suffices H : ∀ {p q : Process} {w v : World} {h : History}, Run R p w h q v →
      h.foldl (fun attached y => y.1.attach y.2 attached) p.attachments = q.attachments from H run
  intro p q w v h run
  induction run with
  | done => rfl
  | turn _ _ ih => rw [List.foldl_cons, ← turn_attachments, ih]
  | moved _ _ ih => exact ih

/-! ## Unwinding -/

/-- An interpreter that unwinds calls nothing itself. -/
theorem Process.calls_of_pops {p : Process} {m : Interpreter} (hp : p.Pops m .interruption) (w : World) :
    p.calls w = ((p.finalizer?).map (·.calls w)).getD [] := by
  match p, hp with
  | .popping _ _, ⟨rfl, rfl⟩ =>
    simp only [calls, finalizer?]
    cases m.frames.frames with
    | nil => rfl
    | cons f fs => cases f <;> rfl
  | .finalizing _ _ child, ⟨rfl, rfl⟩ => rfl

/-- What stays true of an interpreter that unwinds. -/
structure History.Unwinding (later : History) (p q : Process) (c : Cleanup) : Prop where
  interrupted : q.Interrupted
  waiting : q.attachments = c.waiting
  events : later.finalizerEvents = c.events
  failures : later.finalizerFailures = c.failures
  ran : ∀ r ∈ c.ended, r.1.Reaches later.turns (.settled r.2)
  atWork : match q.finalizer? with
    | none => c.busy = none
    | some child => ∃ a, c.busy = some a ∧ a.Reaches later.turns child
  steps : (later.filter (·.1.works)).length + q.remaining = p.remaining

namespace Attachment.Reaches

variable {among more : History} {a : Attachment} {p : Process}

theorem mono (h : a.Reaches among p) (hm : among.Sublist more) : a.Reaches more p := by
  obtain ⟨t, k, h⟩ := h
  exact ⟨t, k, h.mono hm⟩

end Attachment.Reaches

namespace History.Unwinding

variable {later : History} {p q : Process} {c : Cleanup} {m : Interpreter} {w : World}

/-- One more turn, given what it does to the finalizers. -/
theorem extend (hu : later.Unwinding p q c) {q' : Process} {c' : Cleanup} (hq' : q'.Interrupted)
    (hw : q'.attachments = c'.waiting) (he : c'.events = c.events ++ (q.finalizerEvent? w).toList)
    (hf : c'.failures = c.failures ++ q.finalizerFailure?.toList)
    (hran : ∀ r ∈ c'.ended, r ∈ c.ended ∨ r.1.Reaches later.turns (.settled r.2))
    (hat : match q'.finalizer? with
      | none => c'.busy = none
      | some child => ∃ a, c'.busy = some a ∧ a.Reaches (History.turns (later ++ [(q, w)])) child)
    (hs : (if q.works then 1 else 0) + q'.remaining = q.remaining) :
    History.Unwinding (later ++ [(q, w)]) p q' c' := by
  have hsub : later.turns.Sublist (History.turns (later ++ [(q, w)])) := by
    rw [History.turns_concat]
    exact List.sublist_append_left _ _
  refine ⟨hq', hw, ?_, ?_, fun r hr => ?_, hat, ?_⟩
  · rw [he, ← hu.events, History.finalizerEvents, List.filterMap_append, History.finalizerEvents]
    cases h : q.finalizerEvent? w <;> simp [h]
  · rw [hf, ← hu.failures, History.finalizerFailures, List.filterMap_append, History.finalizerFailures]
    cases h : q.finalizerFailure? <;> simp [h]
  · exact (hran r hr).elim (fun hr => (hu.ran r hr).mono hsub) fun hr => hr.mono hsub
  · have hsteps := hu.steps
    rw [List.filter_append, List.length_append]
    cases hq : q.works <;> simp only [hq, List.filter_cons, List.filter_nil] at hs ⊢ <;> simp at hs ⊢ <;> omega

/-- The top frame is popped, and the finalizers are left alone. -/
theorem passed (hu : later.Unwinding p (.popping m .interruption) c) {f : Frame} {s' : FrameStack}
    (hf : m.frames.frames = f :: s'.frames) {m' : Interpreter} (hm' : m'.frames = s')
    (hsame : Frame.attachments m'.env s'.frames = Frame.attachments m.env m.frames.frames)
    (hturn : (Process.turn (.popping m .interruption) w).process = .popping m' .interruption) :
    History.Unwinding (later ++ [(.popping m .interruption, w)]) p (.popping m' .interruption) c := by
  subst hm'
  refine hu.extend trivial (hsame.trans hu.waiting) ?_ (List.append_nil _).symm (fun r hr => .inl hr) hu.atWork ?_
  · simp [Process.finalizerEvent?, hturn]
  · simp only [Process.works, Process.remaining, Process.frames, Process.attachments, hsame, hf, List.length_cons, if_true]
    omega

/-- The top frame is popped, and its finalizer starts. -/
theorem started {n : Node} {fs : List Frame} (hu : later.Unwinding p (.popping m .interruption) c)
    (hf : m.frames.frames = .finalize n :: fs) (w : World) :
    ∃ c' : Cleanup, c'.all = c.all ∧
      History.Unwinding (later ++ [(.popping m .interruption, w)]) p (Process.turn (.popping m .interruption) w).process c' := by
  obtain ⟨s', rfl, hpop⟩ := Interpreter.pop_finalize hf .interruption w
  have hbusy : c.busy = none := hu.atWork
  have hwaiting : c.waiting = { finalizer := n, env := m.env } :: Frame.attachments m.env s'.frames := by
    rw [← hu.waiting]
    simp only [Process.attachments, hf]
    rfl
  have hturn : (Process.turn (.popping m .interruption) w).process =
      .finalizing { m with frames := s' } .interruption (.start n m.env w.newToken.1 m.interval) := by
    simp only [Process.turn, hpop]
  refine ⟨{ c with busy := some { finalizer := n, env := m.env }, waiting := Frame.attachments m.env s'.frames }, ?_, ?_⟩
  · simp [Cleanup.all, hbusy, hwaiting]
  · rw [hturn]
    refine hu.extend trivial rfl ?_ (List.append_nil _).symm (fun r hr => .inl hr) ⟨_, rfl, _, _, .refl _⟩ ?_
    · simp [Process.finalizerEvent?, hturn, Cleanup.events, hbusy, Process.start]
    · simp only [Process.works, Process.remaining, Process.frames, Process.attachments, hf, Frame.attachments,
        List.length_cons, if_true]
      omega

/-- The finalizer at work takes a turn. -/
theorem worked {child : Process} (hu : later.Unwinding p (.finalizing m .interruption child) c) (hx : child.exit? = none)
    (w : World) :
    History.Unwinding (later ++ [(.finalizing m .interruption child, w)]) p
      (.finalizing m .interruption (child.turn w).process) c := by
  obtain ⟨a, hbusy, t, k, htraced⟩ : ∃ a, c.busy = some a ∧ a.Reaches later.turns child := hu.atWork
  obtain ⟨rest, hturns⟩ := Process.turns_eq hx w
  have hchild : a.Reaches (History.turns (later ++ [(.finalizing m .interruption child, w)])) (child.turn w).process := by
    refine ⟨t, k, (htraced.turn hx w rest).mono ?_⟩
    rw [History.turns_concat, ← hturns]
    cases child with
    | settled e => nomatch hx
    | _ => exact (List.Sublist.refl _).append (List.sublist_cons_self _ _)
  have hquiet : (Process.finalizing m .interruption child).finalizerEvent? w = none ∧
      (Process.finalizing m .interruption child).finalizerFailure? = none := by
    cases child with
    | settled e => nomatch hx
    | _ => exact ⟨rfl, rfl⟩
  refine hu.extend trivial hu.waiting ?_ ?_ (fun r hr => .inl hr) ⟨a, hbusy, hchild⟩ ?_
  · simp [hquiet.1]
  · simp [hquiet.2]
  · simp [Process.works, hx, Process.remaining]

/-- The finalizer at work has come to its exit. -/
theorem finished {e : Exit Value Payload} (hu : later.Unwinding p (.finalizing m .interruption (.settled e)) c) (w : World) :
    ∃ c' : Cleanup, c'.all = c.all ∧
      History.Unwinding (later ++ [(.finalizing m .interruption (.settled e), w)]) p
        (m.finalized .interruption e w).process c' := by
  obtain ⟨a, hbusy, hreach⟩ : ∃ a, c.busy = some a ∧ a.Reaches later.turns (.settled e) := hu.atWork
  refine ⟨{ c with ended := c.ended ++ [(a, e)], busy := none }, by simp [Cleanup.all, hbusy], ?_⟩
  have hran : ∀ r ∈ c.ended ++ [(a, e)], r ∈ c.ended ∨ r.1.Reaches later.turns (.settled r.2) := by
    intro r hr
    rcases List.mem_append.mp hr with hr | hr
    · exact .inl hr
    · obtain rfl := List.mem_singleton.mp hr
      exact .inr hreach
  refine hu.extend ?_ ?_ ?_ ?_ hran ?_ ?_
  · cases e <;> trivial
  · rw [m.finalized_attachments]
    exact hu.waiting
  · simp [Process.finalizerEvent?, Cleanup.events, hbusy]
  · cases h : e.cause? <;> simp [Cleanup.failures, Process.finalizerFailure?, h]
  · rw [(m.finalized_frames _ _ _).1]
  · cases e <;>
      simp only [Process.works, Process.remaining, Process.frames, Process.attachments, Interpreter.finalized] <;>
      simp [Process.exit?] <;> omega

/-- A turn of an unwinding interpreter. -/
theorem turn (hu : later.Unwinding p q c) (hq : q.exit? = none) (w : World) :
    ∃ c' : Cleanup, c'.all = c.all ∧ History.Unwinding (later ++ [(q, w)]) p (q.turn w).process c' := by
  match q, hu.interrupted with
  | .popping m .interruption, _ =>
    cases hf : m.frames.frames with
    | nil =>
      have hturn : (Process.turn (.popping m .interruption) w).process = .settled (m.exit .interruption) := by
        simp only [Process.turn, Interpreter.pop_nil hf]
      have hnone : c.waiting = [] := by
        rw [← hu.waiting]
        simp only [Process.attachments, hf]
        rfl
      refine ⟨c, rfl, ?_⟩
      rw [hturn]
      refine hu.extend trivial hnone.symm ?_ (List.append_nil _).symm (fun r hr => .inl hr) hu.atWork ?_
      · simp [Process.finalizerEvent?, hturn]
      · simp [Process.works, Process.remaining, Process.frames, Process.attachments, hf, Frame.attachments]
    | cons f fs =>
      obtain ⟨s', hpop, rfl⟩ := FrameStack.pop?_eq_some hf
      cases f with
      | finalize n => exact hu.started hf w
      | apply k | fold recover k | restore env =>
        have hturn : ∃ m', (Process.turn (.popping m .interruption) w).process = .popping m' .interruption ∧
            m'.frames = s' ∧ Frame.attachments m'.env s'.frames = Frame.attachments m.env m.frames.frames := by
          simp only [Process.turn, Interpreter.pop, hpop, hf]
          exact ⟨_, rfl, rfl, rfl⟩
        obtain ⟨m', hturn, hm', hsame⟩ := hturn
        refine ⟨c, rfl, ?_⟩
        rw [hturn]
        exact hu.passed hf hm' hsame hturn
  | .finalizing m .interruption child, _ =>
    cases hx : child.exit? with
    | none =>
      rw [Process.turn_finalizing m _ hx]
      exact ⟨c, rfl, hu.worked hx w⟩
    | some e =>
      obtain rfl := Process.exit?_eq_some hx
      exact hu.finished w

end History.Unwinding

/-- An interpreter that has started to unwind goes on to do so. -/
theorem Process.Run.unwinding {R : World → World → Prop} {p₀ p q : Process} {w v : World} {h later : History} {c : Cleanup}
    (run : Run R p w h q v) (hu : later.Unwinding p₀ p c) :
    ∃ c' : Cleanup, c'.all = c.all ∧ History.Unwinding (later ++ h) p₀ q c' := by
  induction run generalizing later c with
  | done => exact ⟨c, rfl, by rwa [List.append_nil]⟩
  | turn hp _ ih =>
    obtain ⟨c', hall, hu'⟩ := hu.turn hp _
    obtain ⟨c'', hall', hu''⟩ := ih hu'
    exact ⟨c'', hall'.trans hall, by rwa [List.append_assoc] at hu''⟩
  | moved _ _ ih => exact ih hu

/-- Causes that are all empty come to one that is empty. -/
theorem Cause.isEmpty_foldl_andThen {ε : Type} {c : Cause ε} (hc : c.isEmpty = true) :
    ∀ {l : List (Cause ε)}, (∀ x ∈ l, x.isEmpty = true) → (l.foldl Cause.andThen c).isEmpty = true
  | [], _ => hc
  | x :: l, hl => by
    have hx : (c.andThen x).isEmpty = true := by
      rw [Cause.andThen, if_pos hc]
      exact hl x List.mem_cons_self
    exact isEmpty_foldl_andThen hx fun y hy => hl y (List.mem_cons_of_mem _ hy)

/-- From the moment at which it notices interruption, an interpreter with no failures of finalizers on record unwinds. -/
theorem Process.Run.unwinds {R : World → World → Prop} {m : Interpreter} {q : Process} {w v : World} {h : History}
    (run : Run R (.popping m .interruption) w h q v) (hm : m.suppressed = .empty) :
    ∃ c : Cleanup, c.all = Frame.attachments m.env m.frames.frames ∧ h.Unwinds (.popping m .interruption) q c := by
  have start : History.Unwinding [] (.popping m .interruption) (.popping m .interruption)
      { waiting := Frame.attachments m.env m.frames.frames } :=
    ⟨trivial, rfl, rfl, rfl, nofun, rfl, Nat.zero_add _⟩
  obtain ⟨c, hall, hu⟩ := run.unwinding start
  rw [List.nil_append] at hu
  have hpops : ∀ y ∈ h, ∃ m, y.1.Pops m .interruption := fun y hy =>
    pops_of_interrupted (run.throughout (P := Process.Interrupted) (fun q v _ hq => turn_interrupted hq v) trivial y hy)
      (run.unsettled y hy)
  have hexit : ∀ x, q = .settled x →
      x = .failure (Cause.interrupt.andThen (c.failures.foldl Cause.andThen .empty)) := by
    rintro x rfl
    rw [← hu.failures, ← hm]
    exact run.exit_of_interrupted ⟨rfl, rfl⟩
  refine ⟨c, by simpa [Cleanup.all] using hall, hpops, fun y hy => ?_, hu.events, hu.ran, hu.atWork, hu.steps, ?_, hexit, ?_⟩
  · obtain ⟨m', hm'⟩ := hpops y hy
    exact calls_of_pops hm' y.2
  · intro hq
    obtain ⟨x, hx⟩ := Option.ne_none_iff_exists'.mp hq
    obtain rfl := exit?_eq_some hx
    exact ⟨hu.atWork, hu.waiting.symm⟩
  · intro x hx hempty
    have hnone := Cause.isEmpty_foldl_andThen (c := .empty) rfl hempty
    rw [hexit x hx, Cause.andThen, hnone]
    rfl

/-- In every run from a start, an interpreter that has noticed interruption unwinds exactly: every pending finalizer is run,
innermost first, and nothing else is called. -/
theorem Process.Run.unwindsExactly {R : World → World → Prop} {n : Node} {env : Environment} {t : TokenId} {k : Nat}
    {w v : World} {h : History} {q : Process} (run : Run R (.start n env t k) w h q v) : h.UnwindsExactly q where
  noticed y _ := by
    refine ⟨fun hn => ?_, fun ⟨hp, m, hm⟩ => .of_pops (m := m) hp (by rw [hm]; exact ⟨rfl, rfl⟩)⟩
    obtain ⟨hp, m, -, hm⟩ := hn.unwinds
    exact ⟨hp, m, hm⟩
  entered i p w m hi hp := by
    obtain ⟨j, y, hj, hy⟩ := (run.before hi).noticed id hp
    obtain ⟨hlt, hj⟩ := List.getElem?_eq_some_iff.mp hj
    rw [List.length_take] at hlt
    rw [List.getElem_take] at hj
    exact ⟨j, y, by omega, by rw [← hj]; exact List.getElem?_eq_getElem _, hy⟩
  unwinds i y hi hn := by
    obtain ⟨hp, m, hm, hturn⟩ := hn.unwinds
    have hs : m.suppressed = .empty :=
      (run.suppressed_eq_empty y (List.mem_of_getElem? hi)).elim (fun hi => absurd hi hp) fun hs => hs m hm
    have hrun := run.after hi
    rw [hturn] at hrun ⊢
    obtain ⟨c, hall, hu⟩ := hrun.unwinds hs
    refine ⟨c, ?_, hu⟩
    rw [(run.before hi).attached, hall, Process.attachments_eq hm]

/-- From the moment at which it notices interruption, in whatever way, an interpreter runs the finalizers that are attached
then, and nothing else: the one attached last first, each in the environment that was in force where it was attached, each to
its exit; and it settles with interruption and the causes of those that have failed, in the order in which they have run.
This holds of the interpreter of a run and of every one inside it, whatever the others do to the world. -/
theorem interrupted_unwinding {R : World → World → Prop} {n : Node} {env : Environment} {t : TokenId} {k : Nat}
    {w v : World} {h : History} {p : Process} (run : Process.Run R (.start n env t k) w h p v) :
    h.UnwindsExactly p ∧
      ∀ q, Process.Within q p →
        ∃ (n' : Node) (env' : Environment) (t' : TokenId) (k' : Nat) (w' : World) (h' : History) (v' : World),
          Process.Run World.Anyhow (.start n' env' t' k') w' h' q v' ∧ h'.Sublist h.turns ∧ h'.UnwindsExactly q := by
  refine ⟨run.unwindsExactly, fun q hq => ?_⟩
  obtain ⟨n', env', t', k', w', h', v', run', hs⟩ := run.nested hq
  exact ⟨n', env', t', k', w', h', v', run', hs, run'.unwindsExactly⟩

/-- The finalizer that fails with the environment in which it runs. -/
def complaint : Node := .asks fun env => return .fail (.fail env.toValue)

/-- An effect that interrupts itself, below a continuation and a handler, with a finalizer inside and one outside of another
environment. -/
def complaining : Node :=
  .ensuring
    (.give
      (.matchCause (.chain (.ensuring .interrupt complaint) fun p => return .succeed p) (fun _ => return .succeed .unit)
        fun p => return .succeed p)
      (.plain (.str "inside")))
    complaint

/-- A run that interrupts itself starts its two finalizers in the environments in which they were attached, and its exit has
their failures after the interruption. -/
theorem interrupted_unwinding_complaining :
    ∃ (h : History) (x : Exit Value Payload) (v : World),
      Process.Run Eq (.start complaining (.plain (.str "outside")) 0 9) (World.newToken default).2 h (.settled x) v ∧
        x = .failure (.then .interrupt (.then (.fail (.str "inside")) (.fail (.str "outside")))) ∧
          (∃ y ∈ h, y.1.Notices y.2) ∧ h.UnwindsExactly (.settled x) := by
  have run : Process.Run Eq (.start complaining (.plain (.str "outside")) 0 9) (World.newToken default).2
      (Process.alone 60 (.start complaining (.plain (.str "outside")) 0 9) (World.newToken default).2).1
      (.settled (.failure (.then .interrupt (.then (.fail (.str "inside")) (.fail (.str "outside"))))))
      (Process.alone 60 (.start complaining (.plain (.str "outside")) 0 9) (World.newToken default).2).2.2 :=
    Process.alone_run 60 _ _
  refine ⟨_, _, _, run, rfl, ⟨_, List.mem_of_getElem? (i := 11) rfl, .node _ _⟩, (interrupted_unwinding run).1⟩

end Interruptible
