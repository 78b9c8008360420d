import Interruptible.Machine.Process

/-!
# Turns

One turn of a process: the smallest piece of work between two observable points. A turn takes one node, pops one frame, polls
one awaited future, or is one turn of the finalizer or the branch that the process is busy with. After a turn the process is
either busy, and takes its next turn in the same poll, or it waits, and the poll of its task is over.

Interruption is observed where a node is about to be taken, when an awaited future is stopped, and when a group has been
joined; from then on no continuation and no handler is called, and the pending finalizers run.
-/

namespace Interruptible

/-- Whether a process goes on in the same poll. -/
inductive Pace where
  | busy
  | waiting
deriving Inhabited, Repr, DecidableEq

/-- What a turn leaves. -/
structure Turn where
  process : Process
  world : World
  pace : Pace := .busy

/-- Builds a node in a callback; a panic of the callback is a defect in its place. -/
def guarded (a : Action Node) (w : World) : Node × World :=
  match a.run w with
  | (.ok n, w) => (n, w)
  | (.error p, w) => (.die p.defect, w)

/-- Evaluates a lazy success; a panic is a defect. -/
def evaluate (thunk : Action (Except (Cause Value) Payload)) (w : World) : Except (Cause Value) Payload × World :=
  match thunk.run w with
  | (.ok r, w) => (r, w)
  | (.error p, w) => (.error (.die p.defect), w)

namespace Interpreter

/-- Goes on with the node that a callback builds. -/
def goOn (m : Interpreter) (a : Action Node) (w : World) : Turn :=
  let (n, w) := guarded a w
  { process := .next m n, world := w }

/-- Interruption has been observed: what is pending is unwound. -/
def interrupted (m : Interpreter) (w : World) : Turn :=
  { process := .popping m .interruption, world := w.record (.unwinding m.frames.height m.instructions) }

/-- Starts to run the branches of a group side by side, under a token of their own that trips with that of the group's
surroundings. -/
def fanOut (m : Interpreter) (children : List Node) (w : World) : Turn :=
  let (token, w) := w.newToken
  let (link, w) := w.react m.token (.forward token)
  let branches := children.map fun n => Branch.running (.start n m.env token m.interval)
  { process := .joining m { token, link } [] branches, world := w.record (.joining branches.length) }

/-- Starts to await a host future. Its factory is not called if the token has been tripped. -/
def await (m : Interpreter) (factory : OperationId → Action Future) (onReject : Value → Action (Cause Value))
    (w : World) : Turn :=
  let (op, w) := w.newOperation
  match w.react m.token (.stop op) with
  | (none, w) => m.interrupted (w.record .futureSkipped)
  | (some stopper, w) =>
    match (factory op).run w with
    | (.ok future, w) => { process := .awaiting m { op, stopper, future, onReject }, world := w }
    | (.error p, w) => { process := .next m (.die p.defect), world := w.unsubscribe stopper }

/-- Takes one node. -/
def take (m : Interpreter) (n : Node) (w : World) : Turn :=
  let w := w.record (.step n.kind m.frames.height)
  match n with
  | .chain (.succeed p) k => m.goOn (k p) w
  | .chain (.succeedLazy thunk) k =>
    match evaluate thunk w with
    | (.ok p, w) => m.goOn (k p) w
    | (.error c, w) => { process := .next m (.fail c), world := w }
  | .chain inner k => { process := .next (m.push (.apply k)) inner, world := w }
  | .matchCause inner recover k => { process := .next (m.push (.fold recover k)) inner, world := w }
  | .defer factory => m.goOn factory w
  | .succeed p => { process := .popping m (.value p), world := w }
  | .succeedLazy thunk =>
    match evaluate thunk w with
    | (.ok p, w) => { process := .next m (.succeed p), world := w }
    | (.error c, w) => { process := .next m (.fail c), world := w }
  | .fail c => { process := .popping m (.failure c), world := w }
  | .interrupt => m.interrupted ((w.record .selfInterrupted).interrupt m.token)
  | .asks read => m.goOn (read m.env) w
  | .give inner env => { process := .next { m.push (.restore m.env) with env } inner, world := w }
  | .all children => m.fanOut children w
  | .liftPromise factory onReject => m.await factory onReject w
  | .ensuring inner finalizer => { process := .next (m.push (.finalize finalizer)) inner, world := w }

/-- The exit of an interpreter that has no frames left. -/
def exit (m : Interpreter) : Outcome → Exit Value Payload
  | .value p => .success p
  | .failure c => .failure c
  | .interruption => .failure (Cause.interrupt.andThen m.suppressed)

/-- Pops one frame. A value goes to the innermost continuation, a failure to the innermost handler, and interruption to
neither; finalizers run and environments are restored on the way, whatever the outcome. -/
def pop (m : Interpreter) (o : Outcome) (w : World) : Turn :=
  match m.frames.pop? with
  | none => { process := .settled (m.exit o), world := w }
  | some (frame, frames) =>
    let m := { m with frames }
    match frame, o with
    | .finalize n, o =>
      let (token, w) := w.newToken
      { process := .finalizing m o (.start n m.env token m.interval), world := w }
    | .restore env, o => { process := .popping { m with env } o, world := w }
    | .apply k, .value p => m.goOn (k p) w
    | .fold _ k, .value p => m.goOn (k p) w
    | .fold recover _, .failure c => m.goOn (recover c) w
    | .apply _, o => { process := .popping m o, world := w }
    | .fold _ _, o => { process := .popping m o, world := w }

/-- Goes on after a finalizer. A finalizer that fails takes the place of a success, is appended to a failure, and is kept
for the exit of an interrupted run. -/
def finalized (m : Interpreter) (o : Outcome) (e : Exit Value Payload) (w : World) : Turn :=
  match e with
  | .success _ => { process := .popping m o, world := w }
  | .failure fc =>
    let w := w.record .finalizerFailed
    match o with
    | .value _ => { process := .next m (.fail fc), world := w }
    | .failure c => { process := .popping m (.failure (c.andThen fc)), world := w }
    | .interruption =>
      { process := .popping { m with suppressed := m.suppressed.andThen fc } .interruption, world := w }

/-- Polls an awaited future, unless it has been stopped: then the run unwinds and the future is dropped. -/
def pollAwaited (m : Interpreter) (a : Awaited) (w : World) : Turn :=
  if w.isFired a.op then m.interrupted ((w.unsubscribe a.stopper).forget a.op)
  else
    match a.future.poll a.op (w.attend a.op) with
    | (.pending rest, w) => { process := .awaiting m { a with future := rest }, world := w, pace := .waiting }
    | (.settled (.ok p), w) =>
      { process := .next m (.succeed p), world := (w.unsubscribe a.stopper).forget a.op }
    | (.settled (.error x), w) =>
      m.goOn (do return .fail (← a.onReject x)) ((w.unsubscribe a.stopper).forget a.op)
    | (.panicked p, w) =>
      { process := .next m (.die p.defect), world := (w.unsubscribe a.stopper).forget a.op }

end Interpreter

/-- What a group comes to, given the exits of its branches. -/
inductive Verdict where
  /-- All branches succeeded. -/
  | succeeded (values : List Payload)
  /-- Some failed, and not by interruption alone. -/
  | failed (c : Cause Value)
  /-- Some failed, all of these by interruption alone. -/
  | interrupted
deriving Inhabited

/-- The causes of the exits that failed and not by interruption alone. -/
def trueFailures (exits : List (Exit Value Payload)) : List (Cause Value) :=
  (exits.filterMap Exit.cause?).filter fun c => !c.isInterruptedOnly

/-- Failures other than interruption are combined in the order of the branches; without any, one interrupted branch counts
as interruption of the whole group. -/
def Verdict.ofExits (exits : List (Exit Value Payload)) : Verdict :=
  match trueFailures exits with
  | c :: rest => .failed (rest.foldl Cause.beside c)
  | [] =>
    if exits.any Exit.isFailure then .interrupted
    else .succeeded (exits.filterMap fun | .success p => some p | .failure _ => none)

namespace Interpreter

/-- Goes on after all branches of a group have finished. -/
def joined (m : Interpreter) (g : Group) (exits : List (Exit Value Payload)) (w : World) : Turn :=
  let w := match g.link with
    | some s => w.unsubscribe s
    | none => w
  if w.isInterrupted m.token then m.interrupted w
  else
    match Verdict.ofExits exits with
    | .succeeded values => { process := .next m (.succeed (.list values)), world := w }
    | .failed c => { process := .next m (.fail c), world := w }
    | .interrupted => m.interrupted (w.interrupt m.token)

/-- Ends a round of a group, in which every unfinished branch has been polled once. A failure in this round interrupts the
branches that are left. -/
def endRound (m : Interpreter) (g : Group) (branches : List Branch) (w : World) : Turn :=
  let exits := branches.filterMap Branch.exit?
  let pending := branches.length - exits.length
  let w :=
    if g.failed && !w.isInterrupted g.token then (w.record (.branchFailed pending)).interrupt g.token else w
  if pending = 0 then m.joined g exits w
  else { process := .joining m { g with failed := false } [] branches, world := w, pace := .waiting }

end Interpreter

/-- One turn of a process. -/
def Process.turn : Process → World → Turn
  | .next m n, w =>
    let m := { m with instructions := m.instructions + 1 }
    if m.instructions % m.interval = 0 then
      { process := .counted m n, world := (w.record (.yielding m.instructions)).wakeCurrent, pace := .waiting }
    else { process := .counted m n, world := w }
  | .counted m n, w => if w.isInterrupted m.token then m.interrupted w else m.take n w
  | .popping m o, w => m.pop o w
  | .finalizing m o (.settled e), w => m.finalized o e w
  | .finalizing m o child, w =>
    let t := child.turn w
    { t with process := .finalizing m o t.process }
  | .awaiting m a, w => m.pollAwaited a w
  | .joining m g seen [], w => m.endRound g seen.reverse w
  | .joining m g seen (.finished e :: rest), w =>
    { process := .joining m g (.finished e :: seen) rest, world := w }
  | .joining m g seen (.running p :: rest), w =>
    let t := p.turn w
    match t.process, t.pace with
    | .settled e, _ =>
      { process := .joining m { g with failed := g.failed || e.isFailure } (.finished e :: seen) rest, world := t.world }
    | p, .busy => { process := .joining m g seen (.running p :: rest), world := t.world }
    | p, .waiting => { process := .joining m g (.running p :: seen) rest, world := t.world }
  | .settled e, w => { process := .settled e, world := w, pace := .waiting }

/-- Polls a process: it takes turns until it waits or settles, up to `n` of them. -/
def Process.poll : Nat → Process → World → Process × World
  | 0, p, w => (p, w)
  | n + 1, p, w =>
    match p.turn w with
    | { process := .settled e, world := w, .. } => (.settled e, w)
    | { process := p, world := w, pace := .waiting } => (p, w)
    | { process := p, world := w, pace := .busy } => p.poll n w

end Interruptible
