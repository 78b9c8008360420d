import Interruptible.Proofs.Machine.Turns
import Interruptible.Proofs.World.Alike
import Interruptible.Proofs.World.Later

/-!
# Runs

A run of a process is a sequence of its turns. In between, whoever else is at work changes the world: `Process.Run R` allows
any change that the relation `R` allows, between any two turns. With a relation that allows everything, the world of each
turn is arbitrary. What a task does when it polls a process is a run in which nobody else has a say (`Process.poll_run`).

A turn always leads to a later world (`Process.turn_later`).
-/

namespace Interruptible

/-- The turns that a process has taken: the process and the world before each of them, the first turn first. -/
abbrev History := List (Process × World)

/-- A process takes turns as long as it has not settled, and between two turns the world changes as `R` allows. -/
inductive Process.Run (R : World → World → Prop) : Process → World → History → Process → World → Prop where
  | done (p : Process) (w : World) : Run R p w [] p w
  | turn {p q : Process} {w v : World} {h : History} (hp : p.exit? = none)
      (run : Run R (p.turn w).process (p.turn w).world h q v) : Run R p w ((p, w) :: h) q v
  | moved {p q : Process} {w w' v : World} {h : History} (hm : R w w') (run : Run R p w' h q v) : Run R p w h q v

namespace Process.Run

variable {R : World → World → Prop} {p q p' : Process} {w v w' : World} {h h' : History}

theorem trans (run : Run R p w h q v) (run' : Run R q v h' p' w') : Run R p w (h ++ h') p' w' := by
  induction run with
  | done => exact run'
  | turn hp _ ih => exact turn hp (ih run')
  | moved hm _ ih => exact moved hm (ih run')

/-- One more turn. -/
theorem snoc (run : Run R p w h q v) (hq : q.exit? = none) :
    Run R p w (h ++ [(q, v)]) (q.turn v).process (q.turn v).world :=
  run.trans (turn hq (done _ _))

/-- A single turn. -/
theorem one (w : World) (hp : p.exit? = none) : Run R p w [(p, w)] (p.turn w).process (p.turn w).world :=
  turn hp (done _ _)

/-- At the end the world may change once more. -/
theorem moved_after (run : Run R p w h q v) (hm : R v v') : Run R p w h q v' := by
  simpa using run.trans (moved hm (done q v'))

/-- A run that ends settled begins with a turn of a process that has not. What others leave alone holds until then. -/
theorem uncons {I : World → Prop} (hI : ∀ a b, R a b → I a → I b) (run : Run R p w h q v) (hp : p.exit? = none)
    (hq : q.exit? ≠ none) (hw : I w) :
    ∃ w' h', h = (p, w') :: h' ∧ I w' ∧ Run R (p.turn w').process (p.turn w').world h' q v := by
  induction run with
  | done => exact absurd hp hq
  | turn _ run => exact ⟨_, _, rfl, hw, run⟩
  | moved hm _ ih => exact ih hp hq (hI _ _ hm hw)

/-- A run of a process that has not settled begins with a turn of it, or is no more than a change of the world. -/
theorem starts (run : Run R p w h q v) (hp : p.exit? = none) :
    h = [] ∧ q = p ∨ ∃ w' h', h = (p, w') :: h' ∧ Run R (p.turn w').process (p.turn w').world h' q v := by
  induction run with
  | done => exact .inl ⟨rfl, rfl⟩
  | turn _ run => exact .inr ⟨_, _, rfl, run⟩
  | moved _ _ ih => exact ih hp

/-- Each turn of a run was taken by a process that had not settled. -/
theorem unsettled (run : Run R p w h q v) : ∀ y ∈ h, y.1.exit? = none := by
  induction run with
  | done => exact fun _ hy => nomatch hy
  | turn hp _ ih =>
    intro y hy
    rcases List.mem_cons.mp hy with rfl | hy
    · exact hp
    · exact ih y hy
  | moved _ _ ih => exact ih

/-- What holds of a process at first, and after a turn whenever it held before, holds before every turn. -/
theorem throughout {P : Process → Prop} (hP : ∀ q v, q.exit? = none → P q → P (q.turn v).process)
    (run : Run R p w h q v) (hp : P p) : ∀ y ∈ h, P y.1 := by
  induction run with
  | done => exact fun y hy => nomatch hy
  | turn hq _ ih =>
    intro y hy
    rcases List.mem_cons.mp hy with rfl | hy
    · exact hp
    · exact ih (hP _ _ hq hp) y hy
  | moved _ _ ih => exact ih hp

/-- A run goes on from each of its turns, and what everybody leaves alone up to there holds there. -/
theorem drop {I : World → Prop} (hI : ∀ a b, R a b → I a → I b) (run : Run R p w h q v) {i : Nat} {y : Process × World}
    (hi : h[i]? = some y) (ht : ∀ z ∈ h.take i, I z.2 → I (z.1.turn z.2).world) (hw : I w) :
    I y.2 ∧ Run R y.1 y.2 (h.drop i) q v := by
  induction run generalizing i with
  | done => nomatch hi
  | @turn p q w v h hp run ih =>
    cases i with
    | zero =>
      obtain rfl := Option.some.inj hi
      exact ⟨hw, turn hp run⟩
    | succ i =>
      exact ih hi (fun z hz => ht z (List.mem_cons_of_mem _ hz)) (ht (p, w) List.mem_cons_self hw)
  | moved hm _ ih => exact ih hi ht (hI _ _ hm hw)

/-- A run goes on after each of its turns. -/
theorem after (run : Run R p w h q v) {i : Nat} {y : Process × World} (hi : h[i]? = some y) :
    Run R (y.1.turn y.2).process (y.1.turn y.2).world (h.drop (i + 1)) q v := by
  induction run generalizing i with
  | done => nomatch hi
  | turn _ run ih =>
    cases i with
    | zero =>
      obtain rfl := Option.some.inj hi
      exact run
    | succ i => exact ih hi
  | moved _ _ ih => exact ih hi

/-- A run has led to each of its turns. -/
theorem before (run : Run R p w h q v) {i : Nat} {y : Process × World} (hi : h[i]? = some y) :
    Run R p w (h.take i) y.1 y.2 := by
  induction run generalizing i with
  | done => nomatch hi
  | turn hp _ ih =>
    cases i with
    | zero =>
      obtain rfl := Option.some.inj hi
      exact done _ _
    | succ i => exact turn hp (ih hi)
  | moved hm _ ih => exact moved hm (ih hi)

/-- A run comes to each of its turns and goes on after it. -/
theorem split {h₁ h₂ : History} {y : Process × World} (run : Run R p w (h₁ ++ y :: h₂) q v) :
    Run R p w h₁ y.1 y.2 ∧ Run R (y.1.turn y.2).process (y.1.turn y.2).world h₂ q v := by
  have hi : (h₁ ++ y :: h₂)[h₁.length]? = some y := by simp
  have hdrop : (h₁ ++ y :: h₂).drop (h₁.length + 1) = h₂ := by
    rw [← List.drop_drop, List.drop_left]
    rfl
  have hbefore := run.before hi
  have hafter := run.after hi
  rw [List.take_left] at hbefore
  rw [hdrop] at hafter
  exact ⟨hbefore, hafter⟩

end Process.Run

/-- A process that is not settled has no exit. -/
theorem Process.exit?_eq_none {p : Process} (h : ∀ e, p ≠ .settled e) : p.exit? = none := by
  cases p with
  | settled e => exact absurd rfl (h e)
  | _ => rfl

/-- A process with an exit is settled. -/
theorem Process.exit?_eq_some {p : Process} {e : Exit Value Payload} (h : p.exit? = some e) : p = .settled e := by
  cases p with
  | settled e' => rw [Option.some.inj h]
  | _ => nomatch h

/-- A poll is a run to which nobody else contributes. -/
theorem Process.poll_run {R : World → World → Prop} (n : Nat) {p : Process} (w : World) (hp : p.exit? = none) :
    ∃ history, Run R p w history (p.poll n w).1 (p.poll n w).2 := by
  induction n generalizing p w with
  | zero => exact ⟨[], .done _ _⟩
  | succ n ih =>
    unfold Process.poll
    have hone : Run R p w [(p, w)] (p.turn w).process (p.turn w).world := .one w hp
    split
    · rename_i ht
      rw [ht] at hone
      exact ⟨_, hone⟩
    · rename_i ht
      rw [ht] at hone
      exact ⟨_, hone⟩
    · rename_i p' w' hns ht
      rw [ht] at hone
      obtain ⟨history, run⟩ := ih w' (exit?_eq_none fun e he => hns e he)
      exact ⟨_, hone.trans run⟩

/-- The turns that a process takes while nobody else changes the world, up to `n` of them, and what they lead to. -/
def Process.alone : Nat → Process → World → History × Process × World
  | 0, p, w => ([], p, w)
  | n + 1, p, w =>
    match p.exit? with
    | some _ => ([], p, w)
    | none =>
      let (h, q, v) := alone n (p.turn w).process (p.turn w).world
      ((p, w) :: h, q, v)

/-- The turns that a process takes alone are a run of it, whatever others might have done. -/
theorem Process.alone_run {R : World → World → Prop} (n : Nat) (p : Process) (w : World) :
    Run R p w (p.alone n w).1 (p.alone n w).2.1 (p.alone n w).2.2 := by
  induction n generalizing p w with
  | zero => exact .done p w
  | succ n ih =>
    unfold Process.alone
    split
    · exact .done p w
    · rename_i hp
      exact .turn hp (ih _ _)

/-! ## Turns, state by state -/

/-- An interpreter that has counted one more instruction. -/
def Interpreter.tick (m : Interpreter) : Interpreter := { m with instructions := m.instructions + 1 }

/-- Counting an instruction leaves a note in the world at most. -/
theorem Process.turn_next (m : Interpreter) (n : Node) (w : World) :
    (Process.turn (.next m n) w).process = .counted m.tick n ∧ w.Alike (Process.turn (.next m n) w).world := by
  simp only [Process.turn]
  split
  · exact ⟨rfl, (World.Alike.of_record w _).trans (.of_wakeCurrent _)⟩
  · exact ⟨rfl, .refl w⟩

/-- A node is taken while nobody has tripped the token. -/
theorem Process.turn_counted {m : Interpreter} {w : World} (ho : w.isInterrupted m.token = false) (n : Node) :
    Process.turn (.counted m n) w = m.take n w := by
  simp [Process.turn, ho]

/-- A finalizer takes the turn of the interpreter that waits for it. -/
theorem Process.turn_finalizing (m : Interpreter) (o : Outcome) {child : Process} (hc : child.exit? = none) (w : World) :
    Process.turn (.finalizing m o child) w =
      { child.turn w with process := .finalizing m o (child.turn w).process } := by
  cases child with
  | settled e => nomatch hc
  | _ => rfl

/-! ## Turns lead to later worlds -/

/-- Every turn leads to a later world. -/
theorem World.later_turned (Own : OperationId → Prop) : World.Turned Own World.Later where
  toObeyed := World.later_respected.obeyed
  interrupt := World.interrupt_later
  wakeCurrent := World.wakeCurrent_later
  newToken := World.newToken_later
  grouped t w := (World.newToken_later w).trans (World.react_later _ t (.forward w.newToken.1) fun _ => nofun)
  awaited t w := World.react_stop_later w t
  unsubscribe := World.unsubscribe_later
  polled w op f _ := (World.attend_later w op).trans (f.poll_later op _)
  forget w op _ := World.forget_later w op

/-- Calling code back leads to a later world. -/
theorem guarded_later (a : Action Node) (w : World) : World.Later w (guarded a w).2 :=
  guarded_respects (World.later_turned fun _ => True) a w

/-- Evaluating a thunk leads to a later world. -/
theorem evaluate_later (thunk : Action (Except (Cause Value) Payload)) (w : World) : World.Later w (evaluate thunk w).2 :=
  evaluate_respects (World.later_turned fun _ => True) thunk w

/-- Unlinking a group leads to a later world. -/
theorem Group.unlink_later (g : Group) (w : World) : World.Later w (g.unlink w) :=
  g.unlink_respects (World.later_turned fun _ => True) w

/-- The end of a round leads to a later world. -/
theorem Group.afterRound_later (g : Group) (branches : List Branch) (w : World) : World.Later w (g.afterRound branches w) :=
  g.afterRound_respects (World.later_turned fun _ => True) branches w

namespace Interpreter

/-- An interpreter that calls code back goes on in a later world. -/
theorem goOn_later (m : Interpreter) (a : Action Node) (w : World) : World.Later w (m.goOn a w).world :=
  m.goOn_respects (World.later_turned fun _ => True) a (.refl w)

/-- An interpreter that finds itself interrupted goes on in a later world. -/
theorem interrupted_later (m : Interpreter) (w : World) : World.Later w (m.interrupted w).world :=
  World.record_later w _

/-- An interpreter that awaits a future goes on in a later world. -/
theorem await_later (m : Interpreter) (factory : OperationId → Action Future)
    (onReject : Value → Action (Cause Value)) (w : World) : World.Later w (m.await factory onReject w).world :=
  m.await_respects (World.later_turned fun _ => True) factory onReject w

/-- An interpreter that takes a node goes on in a later world. -/
theorem take_later (m : Interpreter) (n : Node) (w : World) : World.Later w (m.take n w).world :=
  m.take_respects (World.later_turned fun _ => True) n w

/-- An interpreter whose finalizer has settled goes on in a later world. -/
theorem finalized_later (m : Interpreter) (o : Outcome) (e : Exit Value Payload) (w : World) :
    World.Later w (m.finalized o e w).world :=
  m.finalized_respects (World.later_turned fun _ => True) o e w

/-- An interpreter that polls a future goes on in a later world. -/
theorem pollAwaited_later (m : Interpreter) (a : Awaited) (w : World) : World.Later w (m.pollAwaited a w).world :=
  m.pollAwaited_respects (World.later_turned fun _ => True) trivial w

end Interpreter

/-- A turn leads to a later world. -/
theorem Process.turn_later (p : Process) (w : World) : World.Later w (p.turn w).world :=
  p.turn_respects (World.later_turned fun _ => True) w fun _ _ => trivial

end Interruptible
