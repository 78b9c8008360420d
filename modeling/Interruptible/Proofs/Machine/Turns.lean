import Interruptible.Machine.Turn
import Interruptible.Proofs.World.Code
import Interruptible.Proofs.World.Stakes

/-!
# What turns can do to the world

A turn runs callbacks, makes tokens and operations, starts groups and host futures, and looks after the futures that the
interpreters inside the process await. A relation between the world before and the world after that respects each of these
(`World.Turned`) is respected by every turn (`Process.turn_respects`). It may depend on which operations are awaited; those of a
process are among what it has at stake (`Process.stakes`).
-/

namespace Interruptible

mutual
/-- What an interpreter and those inside it have at stake. -/
def Process.stakes : Process → List Stake
  | .next _ _ | .counted _ _ | .popping _ _ | .settled _ => []
  | .finalizing _ _ child => child.stakes
  | .awaiting _ a => [.operation a.op]
  | .joining _ g seen rest => .group g.token :: (Branch.stakes seen ++ Branch.stakes rest)
/-- What the branches of a group have at stake. -/
def Branch.stakes : List Branch → List Stake
  | [] => []
  | .running p :: rest => p.stakes ++ Branch.stakes rest
  | .finished _ :: rest => Branch.stakes rest
end

/-- The world once the link that trips a group's token has been removed. -/
def Group.unlink (g : Group) (w : World) : World :=
  match g.link with
  | some s => w.unsubscribe s
  | none => w

/-- The world after a round of a group: a failure in the round has tripped the group's token. -/
def Group.afterRound (g : Group) (branches : List Branch) (w : World) : World :=
  if g.failed && !w.isInterrupted g.token then
    (w.record (.branchFailed (branches.length - (branches.filterMap Branch.exit?).length))).interrupt g.token
  else w

/-- After a round in which no branch has failed nothing happens to the group's token. -/
theorem Group.afterRound_of_not_failed {g : Group} (hg : g.failed = false) (branches : List Branch) (w : World) :
    g.afterRound branches w = w := by
  simp [afterRound, hg]

namespace Interpreter

/-- How a joined group goes on, in the world without its link. -/
theorem joined_eq (m : Interpreter) (g : Group) (exits : List (Exit Value Payload)) (w : World) :
    m.joined g exits w =
      if (g.unlink w).isInterrupted m.token then m.interrupted (g.unlink w)
      else
        match Verdict.ofExits exits with
        | .succeeded values => { process := .next m (.succeed (.list values)), world := g.unlink w }
        | .failed c => { process := .next m (.fail c), world := g.unlink w }
        | .interrupted => m.interrupted ((g.unlink w).interrupt m.token) := rfl

/-- How a group goes on after a round. -/
theorem endRound_eq (m : Interpreter) (g : Group) (branches : List Branch) (w : World) :
    m.endRound g branches w =
      if branches.length - (branches.filterMap Branch.exit?).length = 0 then
        m.joined g (branches.filterMap Branch.exit?) (g.afterRound branches w)
      else
        { process := .joining m { g with failed := false } [] branches
          world := g.afterRound branches w
          pace := .waiting } := rfl

end Interpreter

/-- A relation between an earlier and a later world that turns respect, if the operations that are awaited are as `Own` says. -/
structure World.Turned (Own : OperationId → Prop) (R : World → World → Prop) : Prop extends World.Obeyed R where
  interrupt : ∀ t w, R w (w.interrupt t)
  wakeCurrent : ∀ w, R w w.wakeCurrent
  newToken : ∀ w, R w w.newToken.2
  /-- A group starts, under a token. -/
  grouped : ∀ t w, R w (w.newToken.2.react t (.forward w.newToken.1)).2
  /-- An operation starts, under a token. -/
  awaited : ∀ t w, R w (w.newOperation.2.react t (.stop w.newOperation.1)).2
  unsubscribe : ∀ w s, R w (w.unsubscribe s)
  /-- A future is polled for its operation. -/
  polled : ∀ w op (f : Future), Own op → R w (f.poll op (w.attend op)).2
  forget : ∀ w op, Own op → R w (w.forget op)

variable {Own : OperationId → Prop} {R : World → World → Prop} (hR : World.Turned Own R)

include hR

/-- The actions of code respect every relation that turns do. -/
theorem World.Turned.act {α : Type} (a : Action α) (w : World) : R w (a.run w).2 := a.run_obeys hR.toObeyed hR.interrupt w

/-- Calling code back respects every relation that turns do. -/
theorem guarded_respects (a : Action Node) (w : World) : R w (guarded a w).2 := by
  have ha := hR.act a w
  unfold guarded
  split <;> rename_i h <;> rwa [h] at ha

/-- Evaluating a thunk respects every relation that turns do. -/
theorem evaluate_respects (thunk : Action (Except (Cause Value) Payload)) (w : World) : R w (evaluate thunk w).2 := by
  have ha := hR.act thunk w
  unfold evaluate
  split <;> rename_i h <;> rwa [h] at ha

/-- Unlinking a group respects every relation that turns do. -/
theorem Group.unlink_respects (g : Group) (w : World) : R w (g.unlink w) := by
  unfold unlink
  split
  · exact hR.unsubscribe w _
  · exact hR.refl w

/-- The end of a round respects every relation that turns do, also when a failure trips the token of the group. -/
theorem Group.afterRound_respects (g : Group) (branches : List Branch) (w : World) : R w (g.afterRound branches w) := by
  unfold afterRound
  split
  · exact hR.trans _ _ _ (hR.record w _) (hR.interrupt _ _)
  · exact hR.refl w

namespace Interpreter

variable (m : Interpreter) {w v : World}

/-- An interpreter that finds itself interrupted leaves a record, and that is all. -/
theorem interrupted_respects (h : R w v) : R w (m.interrupted v).world := hR.trans _ _ _ h (hR.record v _)

/-- An interpreter that goes on does what the code does that it calls back. -/
theorem goOn_respects (a : Action Node) (h : R w v) : R w (m.goOn a v).world := hR.trans _ _ _ h (guarded_respects hR a v)

/-- A group starts with a token and a link. -/
theorem fanOut_respects (children : List Node) (w : World) : R w (m.fanOut children w).world :=
  hR.trans _ _ _ (hR.grouped m.token w) (hR.record _ _)

/-- A future starts with an operation, a stopper and a poll, if its factory does not panic. -/
theorem await_respects (factory : OperationId → Action Future) (onReject : Value → Action (Cause Value)) (w : World) :
    R w (m.await factory onReject w).world := by
  have hstarted := hR.awaited m.token w
  simp only [await]
  rcases hr : w.newOperation.2.react m.token (.stop w.newOperation.1) with ⟨_ | stopper, w'⟩ <;> rw [hr] at hstarted
  · exact m.interrupted_respects hR (hR.trans _ _ _ hstarted (hR.record _ _))
  · have hfactory := hR.trans _ _ _ hstarted (hR.act (factory w.newOperation.1) w')
    dsimp only
    split <;> rename_i h <;> rw [h] at hfactory
    · exact hfactory
    · exact hR.trans _ _ _ hfactory (hR.unsubscribe _ _)

/-- Taking a node respects every relation that turns do. -/
theorem take_respects (n : Node) (w : World) : R w (m.take n w).world := by
  have hnote := hR.record w (.step n.kind m.frames.height)
  unfold take
  split
  · exact m.goOn_respects hR _ hnote
  · rename_i thunk k
    have hthunk := hR.trans _ _ _ hnote (evaluate_respects hR thunk _)
    dsimp only
    split <;> rename_i h <;> rw [h] at hthunk
    · exact m.goOn_respects hR _ hthunk
    · exact hthunk
  · exact hnote
  · exact hnote
  · exact m.goOn_respects hR _ hnote
  · exact hnote
  · rename_i thunk
    have hthunk := hR.trans _ _ _ hnote (evaluate_respects hR thunk _)
    dsimp only
    split <;> rename_i h <;> rw [h] at hthunk <;> exact hthunk
  · exact hnote
  · exact m.interrupted_respects hR (hR.trans _ _ _ (hR.trans _ _ _ hnote (hR.record _ _)) (hR.interrupt _ _))
  · exact m.goOn_respects hR _ hnote
  · exact hnote
  · exact hR.trans _ _ _ hnote (m.fanOut_respects hR _ _)
  · exact hR.trans _ _ _ hnote (m.await_respects hR _ _ _)
  · exact hnote

/-- Popping a frame respects every relation that turns do. -/
theorem pop_respects (o : Outcome) (w : World) : R w (m.pop o w).world := by
  unfold pop
  split
  · exact hR.refl w
  · split
    · exact hR.newToken w
    · exact hR.refl w
    · exact goOn_respects hR _ _ (hR.refl w)
    · exact goOn_respects hR _ _ (hR.refl w)
    · exact goOn_respects hR _ _ (hR.refl w)
    · exact hR.refl w
    · exact hR.refl w

/-- An interpreter whose finalizer has settled leaves a record at most. -/
theorem finalized_respects (o : Outcome) (e : Exit Value Payload) (w : World) : R w (m.finalized o e w).world := by
  unfold finalized
  split
  · exact hR.refl w
  · dsimp only
    split <;> exact hR.record w _

/-- Polling an awaited future respects every relation that turns do, if its operation is as it has to be. -/
theorem pollAwaited_respects {a : Awaited} (ha : Own a.op) (w : World) : R w (m.pollAwaited a w).world := by
  have given_up {v : World} (h : R w v) : R w ((v.unsubscribe a.stopper).forget a.op) :=
    hR.trans _ _ _ (hR.trans _ _ _ h (hR.unsubscribe v _)) (hR.forget _ _ ha)
  have hpoll := hR.polled w a.op a.future ha
  unfold pollAwaited
  split
  · exact m.interrupted_respects hR (given_up (hR.refl w))
  · split <;> rename_i h <;> rw [h] at hpoll
    · exact hpoll
    · exact given_up hpoll
    · exact m.goOn_respects hR _ (given_up hpoll)
    · exact given_up hpoll

/-- Joining a group respects every relation that turns do. -/
theorem joined_respects (g : Group) (exits : List (Exit Value Payload)) (w : World) : R w (m.joined g exits w).world := by
  have hunlinked := g.unlink_respects hR w
  rw [joined_eq]
  split
  · exact m.interrupted_respects hR hunlinked
  · split
    · exact hunlinked
    · exact hunlinked
    · exact m.interrupted_respects hR (hR.trans _ _ _ hunlinked (hR.interrupt _ _))

/-- Ending a round respects every relation that turns do. -/
theorem endRound_respects (g : Group) (branches : List Branch) (w : World) : R w (m.endRound g branches w).world := by
  have hround := g.afterRound_respects hR branches w
  rw [endRound_eq]
  split
  · exact hR.trans _ _ _ hround (m.joined_respects hR g _ _)
  · exact hround

end Interpreter

/-- A turn of a process respects such a relation, if the operations that it awaits are as they have to be; those of a branch are
among those of its group. -/
theorem Process.turn_respects (p : Process) (w : World) (hp : ∀ op, .operation op ∈ p.stakes → Own op) :
    R w (p.turn w).world := by
  have branch {m : Interpreter} {g : Group} {seen rest : List Branch} {q : Process}
      (h : ∀ op, .operation op ∈ (joining m g seen (.running q :: rest)).stakes → Own op) :
      ∀ op, .operation op ∈ q.stakes → Own op := fun op hop =>
    h op (List.mem_cons_of_mem _ (List.mem_append_right _ (List.mem_append_left _ hop)))
  induction p, w using Process.turn.induct with
  | case1 m n w m' h =>
    rw [Process.turn, if_pos h]
    exact hR.trans _ _ _ (hR.record w _) (hR.wakeCurrent _)
  | case2 m n w m' h =>
    rw [Process.turn, if_neg h]
    exact hR.refl w
  | case3 m n w h =>
    rw [Process.turn, if_pos h]
    exact m.interrupted_respects hR (hR.refl w)
  | case4 m n w h =>
    rw [Process.turn, if_neg h]
    exact m.take_respects hR n w
  | case5 m o w => exact m.pop_respects hR o w
  | case6 m o e w => exact m.finalized_respects hR o e w
  | case7 m o child w hc ih =>
    rw [Process.turn]
    · exact ih hp
    · exact hc
  | case8 m a w => exact m.pollAwaited_respects hR (hp a.op (List.mem_singleton.mpr rfl)) w
  | case9 m g seen w => exact m.endRound_respects hR g _ w
  | case10 m g seen e rest w => exact hR.refl w
  | case11 m g seen p rest w t e he ih =>
    simp only [Process.turn]
    split <;> exact ih (branch hp)
  | case12 m g seen p rest w t hpace hns ih =>
    simp only [Process.turn]
    split <;> exact ih (branch hp)
  | case13 m g seen p rest w t hpace hns ih =>
    simp only [Process.turn]
    split <;> exact ih (branch hp)
  | case14 e w => exact hR.refl w

end Interruptible
