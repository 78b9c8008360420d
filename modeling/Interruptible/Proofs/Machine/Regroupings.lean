import Interruptible.Proofs.Effect.Regroupings
import Interruptible.Proofs.Effect.Plan
import Interruptible.Proofs.Machine.Execution

/-!
# Interpreters of effects that are grouped in another way

An interpreter that works on a tree with its chains grouped to the left keeps up with one that works on the other tree: whatever
the latter does in one turn, the former gets to in so many turns of the same poll (`Process.Regroups.turn`). It may push a frame
that the other one has not pushed or will not push, or pop one that hands its value back, and between two such turns it looks at
its token. That is where the two could part: the one that looks could find its token tripped where the other one goes on with a
value (`Process.handsOnOpen`).
-/

namespace Interruptible

/-! ## States -/

/-- Frames whose trees are grouped in another way. -/
inductive Frame.Regroups (idle : Bool) : Frame → Frame → Prop
  | apply {k k' : Payload → Action Node} (hk : ∀ p, (k p).Agrees (Node.Regroups idle) (k' p)) :
    Regroups idle (.apply k) (.apply k')
  | fold {r r' : Cause Value → Action Node} {k k' : Payload → Action Node}
      (hr : ∀ c, (r c).Agrees (Node.Regroups idle) (r' c)) (hk : ∀ p, (k p).Agrees (Node.Regroups idle) (k' p)) :
    Regroups idle (.fold r k) (.fold r' k')
  | finalize {n n' : Node} (hn : n.Regroups idle n') : Regroups idle (.finalize n) (.finalize n')
  | restore (env : Environment) : Regroups idle (.restore env) (.restore env)

/-- Pending frames of which some are grouped in another way. -/
inductive Frame.StackRegroups (idle : Bool) : List Frame → List Frame → Prop
  | nil : StackRegroups idle [] []
  | cons {f f' : Frame} {fs fs' : List Frame} (hf : f.Regroups idle f') (hs : StackRegroups idle fs fs') :
    StackRegroups idle (f :: fs) (f' :: fs')
  /-- Two continuations in place of one. -/
  | assoc {f f' g g' : Payload → Action Node} {fs fs' : List Frame} (hf : ∀ p, (f p).Agrees (Node.Regroups idle) (f' p))
      (hg : ∀ p, (g p).Agrees (Node.Regroups idle) (g' p)) (hs : StackRegroups idle fs fs') :
    StackRegroups idle (.apply (Node.joint f g) :: fs) (.apply f' :: .apply g' :: fs')
  /-- A continuation that hands back what it is given. -/
  | handed {fs fs' : List Frame} (hi : idle = true) (hs : StackRegroups idle fs fs') :
    StackRegroups idle fs (.apply Node.handBack :: fs')

/-- A node above pending frames, and another one above others. -/
inductive Node.RegroupsOver (idle : Bool) : Node → List Frame → Node → List Frame → Prop
  | plain {n n' : Node} {fs fs' : List Frame} (hn : n.Regroups idle n') (hs : Frame.StackRegroups idle fs fs') :
    RegroupsOver idle n fs n' fs'
  /-- The continuation of a chain is a frame already. -/
  | pushed {n n' : Node} {k : Payload → Action Node} {fs fs' : List Frame} (hn : n.Regroups idle n')
      (hs : Frame.StackRegroups idle (.apply k :: fs) fs') : RegroupsOver idle (.chain n k) fs n' fs'
  /-- A failure will not get to a continuation that it finds among the frames. -/
  | failing (c : Cause Value) {k : Payload → Action Node} {fs fs' : List Frame}
      (hs : Frame.StackRegroups idle (.apply k :: fs) fs') : RegroupsOver idle (.fail c) fs (.fail c) fs'

/-- Interpreters that differ in nothing but their frames and in how they count instructions. -/
structure Interpreter.Paired (m m' : Interpreter) : Prop where
  env : m.env = m'.env
  token : m.token = m'.token
  suppressed : m.suppressed = m'.suppressed

mutual
/-- Processes whose trees are grouped in another way. While the first one has counted an instruction and is about to take its
node, the second one is yet to count it. -/
inductive Process.Regroups (idle : Bool) : Process → Process → Prop
  | next {m m' : Interpreter} {n n' : Node} (hm : m.Paired m')
      (h : Node.RegroupsOver idle n m.frames.frames n' m'.frames.frames) : Process.Regroups idle (.next m n) (.next m' n')
  | counted {m m' : Interpreter} {n n' : Node} (hm : m.Paired m')
      (h : Node.RegroupsOver idle n m.frames.frames n' m'.frames.frames) : Process.Regroups idle (.counted m n) (.next m' n')
  | popping {m m' : Interpreter} (hm : m.Paired m') (hs : Frame.StackRegroups idle m.frames.frames m'.frames.frames)
      (o : Outcome) : Process.Regroups idle (.popping m o) (.popping m' o)
  | finalizing {m m' : Interpreter} {p p' : Process} (hm : m.Paired m')
      (hs : Frame.StackRegroups idle m.frames.frames m'.frames.frames) (o : Outcome) (hp : Process.Regroups idle p p') :
    Process.Regroups idle (.finalizing m o p) (.finalizing m' o p')
  | awaiting {m m' : Interpreter} (hm : m.Paired m') (hs : Frame.StackRegroups idle m.frames.frames m'.frames.frames)
      (a : Awaited) : Process.Regroups idle (.awaiting m a) (.awaiting m' a)
  | joining {m m' : Interpreter} {seen seen' rest rest' : List Branch} (hm : m.Paired m')
      (hs : Frame.StackRegroups idle m.frames.frames m'.frames.frames) (g : Group)
      (hseen : List.Forall₂ (Branch.Regroups idle) seen seen') (hrest : List.Forall₂ (Branch.Regroups idle) rest rest') :
    Process.Regroups idle (.joining m g seen rest) (.joining m' g seen' rest')
  | settled (e : Exit Value Payload) : Process.Regroups idle (.settled e) (.settled e)
/-- Branches whose trees are grouped in another way. -/
inductive Branch.Regroups (idle : Bool) : Branch → Branch → Prop
  | running {p p' : Process} (hp : Process.Regroups idle p p') : Branch.Regroups idle (.running p) (.running p')
  | finished (e : Exit Value Payload) : Branch.Regroups idle (.finished e) (.finished e)
end

/-- What two turns leave goes on to be related. -/
structure Turn.Regroups (idle : Bool) (t t' : Turn) : Prop where
  process : t.process.Regroups idle t'.process
  world : t.world.Alike t'.world
  pace : t.pace = t'.pace

/-- The same callback is called with the same argument, up to how the chains that it builds are grouped. -/
inductive Call.Regroups (idle : Bool) : Call → Call → Prop
  | same (c : Call) : Regroups idle c c
  | factory {a a' : Action Node} (h : a.Agrees (Node.Regroups idle) a') : Regroups idle (.factory a) (.factory a')
  | read {r r' : Environment → Action Node} (h : ∀ env, (r env).Agrees (Node.Regroups idle) (r' env)) (env : Environment) :
    Regroups idle (.read r env) (.read r' env)
  | apply {k k' : Payload → Action Node} (h : ∀ p, (k p).Agrees (Node.Regroups idle) (k' p)) (p : Payload) :
    Regroups idle (.apply k p) (.apply k' p)
  | recover {r r' : Cause Value → Action Node} (h : ∀ c, (r c).Agrees (Node.Regroups idle) (r' c)) (c : Cause Value) :
    Regroups idle (.recover r c) (.recover r' c)
  /-- Of two continuations as one the first one is called. -/
  | joint {f f' : Payload → Action Node} (h : ∀ p, (f p).Agrees (Node.Regroups idle) (f' p)) (g : Payload → Action Node)
      (p : Payload) : Regroups idle (.apply (Node.joint f g) p) (.apply f' p)
  | applied {a : Action Node} {f' : Payload → Action Node} (p : Payload) (h : a.Agrees (Node.Regroups idle) (f' p)) :
    Regroups idle (.factory a) (.apply f' p)

/-- The same callbacks are called in the same order, leaving aside those of the second tree that hand back what they are given. -/
inductive Call.Regrouped (idle : Bool) : List Call → List Call → Prop
  | nil : Regrouped idle [] []
  | cons {c c' : Call} {cs cs' : List Call} (hc : c.Regroups idle c') (h : Regrouped idle cs cs') :
    Regrouped idle (c :: cs) (c' :: cs')
  | handed {cs cs' : List Call} (hi : idle = true) (p : Payload) (h : Regrouped idle cs cs') :
    Regrouped idle cs (.apply Node.handBack p :: cs')

/-- A process is about to count an instruction before which it yields. -/
def Process.reachesInterval : Process → Bool
  | .next m _ => (m.instructions + 1) % m.interval == 0
  | .finalizing _ _ child => child.reachesInterval
  | .joining _ _ _ (.running p :: _) => p.reachesInterval
  | _ => false

/-- A process that hands on a value without looking at its token in between does so while nobody has tripped it: a value that a
chain takes at once from a computation and, if `idle` says so, every value that frames are popped with. -/
def Process.handsOnOpen (idle : Bool) : Process → World → Bool
  | .counted m (.chain (.succeedLazy thunk) _), w =>
    w.isInterrupted m.token || !(evaluate thunk w).2.isInterrupted m.token
  | .popping m (.value _), w => !(idle && w.isInterrupted m.token)
  | .finalizing _ _ child, w => child.handsOnOpen idle w
  | .joining _ _ _ (.running p :: _), w => p.handsOnOpen idle w
  | _, _ => true

/-- What an interpreter calls when it takes a node. -/
def Interpreter.takeCalls (m : Interpreter) (n : Node) (w : World) : List Call :=
  n.calls m.env m.token (w.record (.step n.kind m.frames.height))

/-- What a process gets to in one poll, and the callbacks that it calls on the way, unless it yields before. -/
inductive Process.Gets : Process → World → List Call → Turn → Prop where
  | here (p : Process) (w : World) : Gets p w [] { process := p, world := w }
  | turn {p : Process} {w : World} {L : List Call} {t : Turn} (hp : p.exit? = none) (hb : (p.turn w).pace = .busy)
      (rest : Gets (p.turn w).process (p.turn w).world L t) : Gets p w (p.calls w ++ L) t
  | last {p : Process} {w : World} (hp : p.exit? = none) (hb : (p.turn w).pace = .waiting) : Gets p w (p.calls w) (p.turn w)
  | yields {p : Process} (hy : p.reachesInterval = true) (w : World) (L : List Call) (t : Turn) : Gets p w L t

/-- A process that has called some callbacks already gets to what a turn of another one leaves, and has called then what the
other one calls in that turn. -/
def Process.KeepsUp (idle : Bool) (called : List Call) (p' : Process) (w' : World) (t : Turn) (L : List Call) : Prop :=
  ∃ t' L', Gets p' w' L' t' ∧ t.Regroups idle t' ∧ Call.Regrouped idle L (called ++ L')

variable {idle : Bool}

/-- In worlds that are alike callbacks build trees that are related, or panic alike. -/
theorem Action.Agrees.built {Q : Node → Node → Prop} {a a' : Action Node} (h : a.Agrees Q a')
    (hQ : ∀ c, Q (.fail c) (.fail c)) {w w' : World} (hw : w.Alike w') :
    Q (guarded a w).1 (guarded a' w').1 ∧ (guarded a w).2.Alike (guarded a' w').2 := by
  obtain ⟨halike, hr⟩ := h.run hw
  rw [guarded_eq, guarded_eq]
  refine ⟨?_, halike⟩
  rcases hr with ⟨x, y, hx, hy, hn⟩ | ⟨p, hx, hy⟩
  · rw [hx, hy]
    exact hn
  · rw [hx, hy]
    exact hQ _

/-! ## Callbacks -/

namespace Call.Regrouped

variable {L L' M M' : List Call}

theorem refl (L : List Call) : Regrouped idle L L := by
  induction L with
  | nil => exact .nil
  | cons c cs ih => exact .cons (.same c) ih

/-- Callbacks that are the same in two parts are the same in all. -/
theorem append (h : Regrouped idle L M) (h' : Regrouped idle L' M') : Regrouped idle (L ++ L') (M ++ M') := by
  induction h with
  | nil => exact h'
  | cons hc _ ih => exact .cons hc ih
  | handed hi p _ ih => exact .handed hi p ih

end Call.Regrouped

/-! ## Keeping up -/

/-- What the turn of a branch is to the interpreter that joins its group. -/
def Interpreter.branchTurn (m : Interpreter) (g : Group) (seen rest : List Branch) (t : Turn) : Turn :=
  match t.process, t.pace with
  | .settled e, _ =>
    { process := .joining m { g with failed := g.failed || e.isFailure } (.finished e :: seen) rest, world := t.world }
  | p, .busy => { process := .joining m g seen (.running p :: rest), world := t.world }
  | p, .waiting => { process := .joining m g (.running p :: seen) rest, world := t.world }

namespace Interpreter

variable {m : Interpreter} {g : Group} {seen rest : List Branch} {t : Turn}

/-- The interpreter of a group is busy as long as its branches take turns. -/
theorem branchTurn_pace (t : Turn) : (m.branchTurn g seen rest t).pace = .busy := by
  unfold branchTurn
  split <;> rfl

/-- A branch that is busy takes the next turn of its group. -/
theorem branchTurn_busy (hp : t.process.exit? = none) (hb : t.pace = .busy) :
    m.branchTurn g seen rest t = { process := .joining m g seen (.running t.process :: rest), world := t.world } := by
  obtain ⟨p, w, pace⟩ := t
  obtain rfl : pace = .busy := hb
  cases p with
  | settled e => exact absurd hp (Option.some_ne_none e)
  | _ => rfl

/-- A branch that waits gives way to the next one. -/
theorem branchTurn_waiting (hp : t.process.exit? = none) (hb : t.pace = .waiting) :
    m.branchTurn g seen rest t = { process := .joining m g (.running t.process :: seen) rest, world := t.world } := by
  obtain ⟨p, w, pace⟩ := t
  obtain rfl : pace = .waiting := hb
  cases p with
  | settled e => exact absurd hp (Option.some_ne_none e)
  | _ => rfl

end Interpreter

/-- A turn of a group is made of the turn of its branch. -/
theorem Process.turn_running (m : Interpreter) (g : Group) (seen rest : List Branch) (p : Process) (w : World) :
    Process.turn (.joining m g seen (.running p :: rest)) w = m.branchTurn g seen rest (p.turn w) := by
  rw [Process.turn]
  rfl

namespace Process

variable {p : Process} {w : World} {L : List Call} {t : Turn}

namespace Gets

/-- A turn, after which the process is busy or waits. -/
theorem single (hp : p.exit? = none) (w : World) : Gets p w (p.calls w) (p.turn w) := by
  cases hb : (p.turn w).pace with
  | waiting => exact .last hp hb
  | busy =>
    have hone := Gets.turn hp hb (.here _ _)
    rw [List.append_nil, ← hb] at hone
    exact hone

/-- What a finalizer gets to, it gets to while an interpreter waits for it. -/
theorem finalizing (h : Gets p w L t) (m : Interpreter) (o : Outcome) :
    Gets (.finalizing m o p) w L { t with process := .finalizing m o t.process } := by
  induction h with
  | here p w => exact .here _ w
  | @turn p w L t hp hb _ ih =>
    have hturn := turn_finalizing m o hp w
    exact .turn rfl (by rw [hturn]; exact hb) (by rw [hturn]; exact ih)
  | @last p w hp _ =>
    rw [← turn_finalizing m o hp w]
    exact .single (p := .finalizing m o p) rfl w
  | yields hy => exact .yields (p := .finalizing m o _) hy _ _ _

/-- A process that has settled stays where it is. -/
theorem of_settled {e : Exit Value Payload} (h : Gets (.settled e) w L t) :
    L = [] ∧ t = { process := .settled e, world := w } := by
  cases h with
  | here => exact ⟨rfl, rfl⟩
  | turn hp => exact absurd hp (Option.some_ne_none e)
  | last hp => exact absurd hp (Option.some_ne_none e)
  | yields hy => exact absurd hy Bool.false_ne_true

/-- What a branch gets to, it gets to in its group as well. -/
theorem joining (h : Gets p w L t) (hp : p.exit? = none) (m : Interpreter) (g : Group) (seen rest : List Branch) :
    Gets (.joining m g seen (.running p :: rest)) w L (m.branchTurn g seen rest t) := by
  induction h with
  | here p w =>
    rw [Interpreter.branchTurn_busy hp rfl]
    exact .here _ w
  | @turn p w L t _ hb hrest ih =>
    have hturn := turn_running m g seen rest p w
    refine .turn rfl (by rw [hturn]; exact Interpreter.branchTurn_pace _) ?_
    rw [hturn]
    cases hs : (p.turn w).process.exit? with
    | none =>
      rw [Interpreter.branchTurn_busy hs hb]
      exact ih hs
    | some e =>
      have hsettled := exit?_eq_some hs
      rw [hsettled] at hrest
      obtain ⟨rfl, rfl⟩ := hrest.of_settled
      have hlast : p.turn w = { process := .settled e, world := (p.turn w).world } := by
        rw [← hsettled, ← hb]
      rw [hlast]
      exact .here _ _
  | @last p w _ _ =>
    rw [← turn_running m g seen rest p w]
    exact .single (p := .joining m g seen (.running p :: rest)) rfl w
  | yields hy => exact .yields (p := .joining m g seen (.running _ :: rest)) hy _ _ _

end Gets

end Process

namespace Interpreter

/-- An interpreter that awaits a future is busy until it has polled it. -/
theorem await_busy (m : Interpreter) (factory : OperationId → Action Future) (onReject : Value → Action (Cause Value))
    (w : World) : (m.await factory onReject w).pace = .busy := by
  unfold await
  dsimp only
  split
  · rfl
  · split <;> rfl

/-- An interpreter that has taken a node is busy. -/
theorem take_busy (m : Interpreter) (n : Node) (w : World) : (m.take n w).pace = .busy := by
  unfold take
  split
  case h_13 => exact m.await_busy _ _ _
  case h_2 | h_7 =>
    dsimp only
    split <;> rfl
  all_goals rfl

/-- An interpreter that has popped a frame is busy. -/
theorem pop_busy (m : Interpreter) (o : Outcome) (w : World) : (m.pop o w).pace = .busy := by
  unfold pop
  split
  · rfl
  · split <;> rfl

end Interpreter

/-- An instruction is counted before which the interpreter does not yield. -/
theorem Process.turn_next_of_short {m : Interpreter} {n : Node} (hy : (Process.next m n).reachesInterval = false) (w : World) :
    Process.turn (.next m n) w = { process := .counted m.tick n, world := w } := by
  rw [Process.turn, if_neg (fun h => by simp [Process.reachesInterval, h] at hy)]
  rfl

/-- Processes whose trees are regrouped settle together, with the same exit. -/
theorem Process.Regroups.exit?_eq {p p' : Process} (h : p.Regroups idle p') : p.exit? = p'.exit? := by
  cases h <;> rfl

/-- What is left of a turn of a branch goes on to be related in its group. -/
theorem Turn.Regroups.branch {t t' : Turn} (h : t.Regroups idle t') {m m' : Interpreter} (hm : m.Paired m')
    (hs : Frame.StackRegroups idle m.frames.frames m'.frames.frames) (g : Group) {seen seen' rest rest' : List Branch}
    (hseen : List.Forall₂ (Branch.Regroups idle) seen seen') (hrest : List.Forall₂ (Branch.Regroups idle) rest rest') :
    (m.branchTurn g seen rest t).Regroups idle (m'.branchTurn g seen' rest' t') := by
  obtain ⟨p, w, pace⟩ := t
  obtain ⟨p', w', pace'⟩ := t'
  obtain ⟨hp, hw, hpace⟩ := h
  obtain rfl : pace = pace' := hpace
  cases hx : p.exit? with
  | some e =>
    obtain rfl := Process.exit?_eq_some hx
    have hp' : p'.exit? = some e := hp.exit?_eq.symm
    obtain rfl := Process.exit?_eq_some hp'
    exact ⟨.joining hm hs _ (.cons (.finished e) hseen) hrest, hw, rfl⟩
  | none =>
    have hx' : p'.exit? = none := hp.exit?_eq.symm.trans hx
    cases pace with
    | busy =>
      rw [Interpreter.branchTurn_busy hx rfl, Interpreter.branchTurn_busy hx' rfl]
      exact ⟨.joining hm hs g hseen (.cons (.running hp) hrest), hw, rfl⟩
    | waiting =>
      rw [Interpreter.branchTurn_waiting hx rfl, Interpreter.branchTurn_waiting hx' rfl]
      exact ⟨.joining hm hs g (.cons (.running hp) hseen) hrest, hw, rfl⟩

/-- Frames are popped with a value, or with something that continuations let pass. -/
theorem Outcome.value_or_passed (o : Outcome) : (∃ p, o = .value p) ∨ ∀ p, o ≠ .value p := by
  cases o with
  | value p => exact .inl ⟨p, rfl⟩
  | failure c => exact .inr fun _ => Outcome.noConfusion
  | interruption => exact .inr fun _ => Outcome.noConfusion

/-- A continuation is passed by unless there is a value. -/
theorem Interpreter.pop_passed {m : Interpreter} {k : Payload → Action Node} {o : Outcome} (ho : ∀ p, o ≠ .value p) (w : World) :
    (m.push (.apply k)).pop o w = { process := .popping m o, world := w } := by
  rw [pop_push]
  cases o with
  | value p => exact absurd rfl (ho p)
  | failure c => rfl
  | interruption => rfl

/-- A continuation that is passed by is not called. -/
theorem Frame.calls_passed {k : Payload → Action Node} {o : Outcome} (ho : ∀ p, o ≠ .value p) : (Frame.apply k).calls o = [] := by
  cases o with
  | value p => exact absurd rfl (ho p)
  | failure c => rfl
  | interruption => rfl

/-- When a frame is popped, its callback is called. -/
theorem Process.calls_popping (m : Interpreter) (f : Frame) (o : Outcome) (w : World) :
    (Process.popping (m.push f) o).calls w = f.calls o := rfl

/-- When a node is taken, its callbacks are called. -/
theorem Process.calls_counted {m : Interpreter} {w : World} (ho : w.isInterrupted m.token = false) (n : Node) :
    (Process.counted m n).calls w = m.takeCalls n w := by
  rw [Process.calls, ho, if_neg Bool.false_ne_true]
  rfl

namespace Process.KeepsUp

variable {p : Process} {w : World} {L called : List Call} {t : Turn}

/-- It is there already. -/
theorem now (ht : t.Regroups idle { process := p, world := w }) (hL : Call.Regrouped idle L called) :
    KeepsUp idle called p w t L :=
  ⟨_, _, .here p w, ht, by rw [List.append_nil]; exact hL⟩

/-- It is there after the turn that it has taken. -/
theorem after {r : Turn} (ht : t.Regroups idle r) (hb : r.pace = .busy) (hL : Call.Regrouped idle L called) :
    KeepsUp idle called r.process r.world t L := by
  obtain ⟨p, w, pace⟩ := r
  obtain rfl : pace = .busy := hb
  exact now ht hL

/-- It is there after one turn. -/
theorem single (hp : p.exit? = none) (ht : t.Regroups idle (p.turn w)) (hL : Call.Regrouped idle L (called ++ p.calls w)) :
    KeepsUp idle called p w t L :=
  ⟨_, _, .single hp w, ht, hL⟩

/-- It takes a turn first. -/
theorem turn (hp : p.exit? = none) (hb : (p.turn w).pace = .busy)
    (h : KeepsUp idle (called ++ p.calls w) (p.turn w).process (p.turn w).world t L) : KeepsUp idle called p w t L := by
  obtain ⟨t', L', hgets, ht, hL⟩ := h
  rw [List.append_assoc] at hL
  exact ⟨t', _, .turn hp hb hgets, ht, hL⟩

/-- It counts an instruction first, unless it yields before. -/
theorem next {m : Interpreter} {n : Node} (h : KeepsUp idle called (.counted m.tick n) w t L) :
    KeepsUp idle called (.next m n) w t L := by
  obtain ⟨t', L', hgets, ht, hL⟩ := h
  refine ⟨t', L', ?_, ht, hL⟩
  cases hy : (Process.next m n).reachesInterval with
  | true => exact .yields hy _ _ _
  | false =>
    have hturn := turn_next_of_short hy w
    exact .turn (p := .next m n) (L := L') rfl (by rw [hturn]) (by rw [hturn]; exact hgets)

/-- It takes a node first. -/
theorem take {m : Interpreter} {n : Node} (ho : w.isInterrupted m.token = false)
    (h : KeepsUp idle (called ++ m.tick.takeCalls n w) (m.tick.take n w).process (m.tick.take n w).world t L) :
    KeepsUp idle called (.next m n) w t L := by
  have hturn : Process.turn (.counted m.tick n) w = m.tick.take n w := turn_counted (m := m.tick) ho n
  have hcalls : (Process.counted m.tick n).calls w = m.tick.takeCalls n w := calls_counted (m := m.tick) ho n
  refine next (turn rfl ?_ ?_)
  · rw [hturn]
    exact m.tick.take_busy n w
  · rw [hturn, hcalls]
    exact h

/-- It finds its token tripped and unwinds. -/
theorem tripped {m : Interpreter} {n : Node} (ho : w.isInterrupted m.token = true)
    (h : KeepsUp idle called (.popping m.tick .interruption) (m.tick.interrupted w).world t L) :
    KeepsUp idle called (.next m n) w t L := by
  have ho' : w.isInterrupted m.tick.token = true := ho
  have hturn : Process.turn (.counted m.tick n) w = m.tick.interrupted w := by rw [Process.turn, ho', if_pos rfl]
  have hcalls : (Process.counted m.tick n).calls w = [] := by rw [Process.calls, ho', if_pos rfl]
  refine next (turn rfl ?_ ?_)
  · rw [hturn]
    rfl
  · rw [hturn, hcalls, List.append_nil]
    exact h

/-- It pops a continuation with something that this lets pass. -/
theorem pass {m : Interpreter} {k : Payload → Action Node} {o : Outcome} (ho : ∀ p, o ≠ .value p)
    (h : KeepsUp idle called (.popping m o) w t L) : KeepsUp idle called (.popping (m.push (.apply k)) o) w t L := by
  refine turn rfl (Interpreter.pop_busy _ o w) ?_
  rw [calls_popping, Frame.calls_passed ho, List.append_nil, Process.turn, Interpreter.pop_passed ho]
  exact h

/-- What it gets to as a finalizer. -/
theorem finalizing (h : KeepsUp idle called p w t L) {m m' : Interpreter} (hm : m.Paired m')
    (hs : Frame.StackRegroups idle m.frames.frames m'.frames.frames) (o : Outcome) :
    KeepsUp idle called (.finalizing m' o p) w { t with process := .finalizing m o t.process } L := by
  obtain ⟨t', L', hgets, ht, hL⟩ := h
  exact ⟨_, L', hgets.finalizing m' o, ⟨.finalizing hm hs o ht.process, ht.world, ht.pace⟩, hL⟩

/-- What it gets to as a branch of a group. -/
theorem joining (h : KeepsUp idle called p w t L) (hp : p.exit? = none) {m m' : Interpreter} (hm : m.Paired m')
    (hs : Frame.StackRegroups idle m.frames.frames m'.frames.frames) (g : Group) {seen seen' rest rest' : List Branch}
    (hseen : List.Forall₂ (Branch.Regroups idle) seen seen') (hrest : List.Forall₂ (Branch.Regroups idle) rest rest') :
    KeepsUp idle called (.joining m' g seen' (.running p :: rest')) w (m.branchTurn g seen rest t) L := by
  obtain ⟨t', L', hgets, ht, hL⟩ := h
  exact ⟨_, L', hgets.joining hp m' g seen' rest', ht.branch hm hs g hseen hrest, hL⟩

end Process.KeepsUp

end Interruptible
