import Interruptible.Effect.Bracket
import Interruptible.Proofs.Machine.Calls
import Interruptible.Proofs.Machine.Nested

/-!
# Resources of brackets

A resource that the acquisition of a bracket has come to (`Lease`): the cell that is made for it, the nodes and frames that the
bracket consists of from there on, and the turns in which the use and the release of the resource are called (`Process.Uses`,
`Process.ReleasesWith`). A callback is called in a turn if what the turn does to the world is what the callback does, and if
what the callback builds is gone on with (`Process.CallsBack`); wherever the code of a bracket finds the resource in its cell
this is so (`Process.AtRelease.releasesWith`), and wherever it does not, nothing is done at all (`Process.AtRelease.idle`).
-/

namespace Interruptible

/-- The exit that is told to a continuation which goes on with an exit. -/
def Payload.told : Payload → Exit Value Payload
  | .exit e => e
  | p => .success p

/-- A continuation that goes on with an exit is told it. -/
theorem Node.onExit_told (f : Exit Value Payload → Action Node) (p : Payload) : onExit f p = f p.told := by
  cases p <;> rfl

/-- How a bracket goes on after a use that has ended, with the effect that the release has built. -/
def Node.concluding (used : Exit Value Payload) (n : Node) : Node :=
  n.asUnit.result.chain (onExit fun r => return afterRelease used r)

/-- A resource that has been handed to the continuation of an acquisition, with what is to be done with it. -/
structure Lease where
  cell : CellId
  resource : Payload
  use : Payload → Action Node
  release : Payload → Exit Value Payload → Action Node

namespace Lease

variable (b : Lease)

/-- The same bracket, with a resource that its acquisition has come to. -/
def lent (resource : Payload) : Lease := { b with resource }

/-- The start of the use, which puts the resource into its cell. -/
def start : Node := .useResource b.cell b.use b.resource

/-- What the continuation builds: the use, and the release after it. -/
def handedOver : Node := b.start.result.chain (Node.onExit (Node.releaseAfterUse b.cell b.release))

/-- What runs when the bracket has ended, whether or not the resource has been released. -/
def guard : Node := .releaseOnInterrupt b.cell b.release

/-- The bracket that the resource comes from: an acquisition that is continued and guarded. -/
def bracketed (acquire : Node) : Node :=
  (acquire.chain fun resource => return handedOver { b with resource }).ensuring b.guard

/-- The frame that captures how the use ends. -/
def capture : Frame :=
  .fold (fun c => return .succeed (.exit (.failure c))) fun p => return .succeed (.exit (.success p))

/-- The frame that goes on with the release. -/
def resume : Frame := .apply (Node.onExit (Node.releaseAfterUse b.cell b.release))

/-- The cell is there and empty. -/
def Lacks (w : World) : Prop := w.cells[b.cell]? = some none

/-- The resource lies in its cell. -/
def Holds (w : World) : Prop := w.cells[b.cell]? = some (some b.resource)

/-- The world once the resource has been put into its cell. -/
def filled (w : World) : World := { w with cells := w.cells.modify b.cell fun _ => some b.resource }

/-- The world once the resource has been taken out of its cell. -/
def emptied (w : World) : World := { w with cells := w.cells.modify b.cell fun _ => none }

end Lease

/-! ## What the callbacks of a bracket do -/

/-- The cell of a bracket is new and empty. -/
theorem Lease.bracketExit_run {b : Lease} {w : World} (hcell : b.cell = w.cells.size) (acquire : Node) :
    (Node.bracketExit acquire b.use b.release).run w =
      (.ok (b.bracketed acquire), { w with cells := w.cells.push none }) := by
  obtain ⟨cell, resource, use, release⟩ := b
  obtain rfl : cell = w.cells.size := hcell
  rfl

namespace Lease

variable {b : Lease} {w : World}

theorem Holds.take (h : b.Holds w) : (w.cells[b.cell]?).join = some b.resource := by
  rw [h]
  rfl

theorem emptied_lacks (h : b.Holds w) : b.Lacks (b.emptied w) := by
  unfold Lacks emptied
  rw [Array.getElem?_modify, if_pos rfl, h]
  rfl

/-- Nothing is taken out of a cell without a resource. -/
theorem take_eq_none (hw : ∀ r, ¬ (b.lent r).Holds w) : (w.cells[b.cell]?).join = none := by
  cases hc : w.cells[b.cell]? with
  | none => rfl
  | some x =>
    cases x with
    | none => rfl
    | some r => exact absurd hc (hw r)

/-- A cell without a resource is not changed when it is emptied. -/
theorem emptied_eq (hw : ∀ r, ¬ (b.lent r).Holds w) : b.emptied w = w := by
  have hcells : (w.cells.modify b.cell fun _ => none) = w.cells := by
    refine Array.ext_getElem? fun i => ?_
    rw [Array.getElem?_modify]
    split
    · rename_i hi
      subst hi
      have hnone := take_eq_none hw
      cases hc : w.cells[b.cell]? with
      | none => rfl
      | some x =>
        rw [hc] at hnone
        exact congrArg some hnone.symm
    · rfl
  unfold emptied
  rw [hcells]

/-- The continuation of the use takes the resource out of its cell and calls the release, and goes on with what that builds. -/
theorem releaseAfterUse_run (h : b.Holds w) (used : Exit Value Payload) :
    (Node.releaseAfterUse b.cell b.release used).run w =
      (((b.release b.resource used).run (b.emptied w)).1.map (Node.concluding used),
        ((b.release b.resource used).run (b.emptied w)).2) := by
  have htake := h.take
  simp only [Node.releaseAfterUse, Action.perform, bind, Action.bind, Action.run, Command.run, htake]
  have hreleasing : (Node.releasing b.release b.resource used).run (b.emptied w) =
      (((b.release b.resource used).run (b.emptied w)).1.map Node.asUnit,
        ((b.release b.resource used).run (b.emptied w)).2) := Action.run_map _ Node.asUnit _
  refine (Action.run_map (Node.releasing b.release b.resource used) _ (b.emptied w)).trans ?_
  rw [hreleasing]
  cases ((b.release b.resource used).run (b.emptied w)).1 <;> rfl

/-- The guard does so as well if the resource still lies in its cell. -/
theorem guard_run (h : b.Holds w) {factory : Action Node} (hf : b.guard = .defer factory) :
    factory.run w =
      (((b.release b.resource .interrupted).run (b.emptied w)).1.map Node.asUnit,
        ((b.release b.resource .interrupted).run (b.emptied w)).2) := by
  obtain rfl := Node.defer.inj hf
  have htake := h.take
  simp only [Action.perform, bind, Action.bind, Action.run, Command.run, htake]
  exact Action.run_map _ _ _

/-- Without a resource in the cell the continuation of the use goes on with the exit of the use. -/
theorem releaseAfterUse_run_idle (hw : ∀ r, ¬ (b.lent r).Holds w) (used : Exit Value Payload) :
    (Node.releaseAfterUse b.cell b.release used).run w = (.ok (.done used), w) := by
  have hnone := take_eq_none hw
  simp only [Node.releaseAfterUse, Action.perform, bind, Action.bind, Action.run, Command.run, hnone]
  exact congrArg (Prod.mk _) (emptied_eq hw)

/-- And the guard with nothing. -/
theorem guard_run_idle (hw : ∀ r, ¬ (b.lent r).Holds w) {factory : Action Node} (hf : b.guard = .defer factory) :
    factory.run w = (.ok .unit, w) := by
  obtain rfl := Node.defer.inj hf
  have hnone := take_eq_none hw
  simp only [Action.perform, bind, Action.bind, Action.run, Command.run, hnone]
  exact congrArg (Prod.mk _) (emptied_eq hw)

theorem filled_holds (hw : b.Lacks w ∨ b.Holds w) : b.Holds (b.filled w) := by
  unfold Holds filled
  rw [Array.getElem?_modify, if_pos rfl]
  rcases hw with hw | hw <;> rw [hw] <;> rfl

/-- The use starts when the resource has been put into its cell. -/
theorem start_run {factory : Action Node} (hf : b.start = .defer factory) (w : World) :
    factory.run w = (b.use b.resource).run (b.filled w) := by
  obtain rfl := Node.defer.inj hf
  rfl

end Lease

/-! ## Turns that use and turns that release -/

/-- In this turn an interpreter calls a callback. The callback finds a world that differs from `start` in nothing it knows of, and
what it does to the world is what the turn does; the interpreter goes on with what `f` makes of the effect that the callback
builds, or with the defect of its panic. -/
def Process.CallsBack (a : Action Node) (f : Node → Node) (start : World) (p : Process) (w : World) : Prop :=
  ∃ v m, start.Alike v ∧ (p.turn w).world = (a.run v).2 ∧
    Process.Within (.next m (Node.built ((a.run v).1.map f))) (p.turn w).process

/-- In this turn an interpreter takes the start of the use, which is called after the resource has been put into its cell. -/
def Process.Uses (b : Lease) : Process → World → Prop
  | .counted m n, w =>
    n = b.start ∧ w.isInterrupted m.token = false ∧ CallsBack (b.use b.resource) id (b.filled w) (.counted m n) w
  | _, _ => False

/-- In this turn an interpreter comes to one of the two places where a release may be called: the continuation of the use, which
tells the release the exit that it goes on with, and the guard, which tells it of interruption. What is made of the effect that
the release builds is `f`. -/
def Process.AtRelease (b : Lease) (e : Exit Value Payload) (f : Node → Node) : Process → World → Prop
  | .popping m (.value p), _ => m.frames.frames.head? = some b.resume ∧ e = p.told ∧ f = Node.concluding e
  | .counted m n, w => n = b.guard ∧ w.isInterrupted m.token = false ∧ e = .interrupted ∧ f = Node.asUnit
  | .finalizing _ _ child, w => child.AtRelease b e f w
  | .joining _ _ _ (.running q :: _), w => q.AtRelease b e f w
  | _, _ => False

/-- In this turn the release is called with an exit, at its place: the resource lies in its cell, and is taken out of it
before. -/
def Process.ReleasesWith (b : Lease) (e : Exit Value Payload) (p : Process) (w : World) : Prop :=
  ∃ f, p.AtRelease b e f w ∧ b.Holds w ∧ p.CallsBack (b.release b.resource e) f (b.emptied w) w

/-- In this turn the release is called. -/
def Process.Releases (b : Lease) (p : Process) (w : World) : Prop := ∃ e, p.ReleasesWith b e w

/-- An interpreter of this process is about to run a finalizer, whose token nobody has tripped. -/
def Process.Isolated (n : Node) : Process → World → Prop
  | .finalizing _ _ (.counted m n'), w => n' = n → w.isInterrupted m.token = false
  | _, _ => True

namespace Process

variable {b : Lease} {a : Action Node} {f : Node → Node} {start w : World} {p : Process} {e : Exit Value Payload}

/-- An interpreter that goes on with a callback calls whatever the callback consists of. -/
theorem CallsBack.of_goOn {m : Interpreter} {c : Action Node} {v u : World} (hturn : p.turn w = m.goOn c u)
    (hrun : c.run u = ((a.run v).1.map f, (a.run v).2)) (hv : start.Alike v) : p.CallsBack a f start w := by
  refine ⟨v, m, hv, ?_⟩
  rw [hturn, Interpreter.goOn_eq, hrun]
  exact ⟨rfl, .self⟩

/-- A finalizer takes the turn of the interpreter that waits for it. -/
theorem CallsBack.finalizing {child : Process} (h : child.CallsBack a f start w) (hc : child.exit? = none) (m : Interpreter)
    (o : Outcome) : CallsBack a f start (.finalizing m o child) w := by
  obtain ⟨v, m', hv, hworld, hnext⟩ := h
  refine ⟨v, m', hv, ?_⟩
  rw [turn_finalizing m o hc]
  exact ⟨hworld, .part List.mem_cons_self hnext⟩

/-- A branch takes the turn of the interpreter that waits for its group. -/
theorem CallsBack.joining {q : Process} (h : q.CallsBack a f start w) (m : Interpreter) (g : Group) (seen rest : List Branch) :
    CallsBack a f start (.joining m g seen (.running q :: rest)) w := by
  obtain ⟨v, m', hv, hworld, hnext⟩ := h
  refine ⟨v, m', hv, ?_⟩
  simp only [turn]
  split
  · rename_i hsettled
    rw [hsettled] at hnext
    cases hnext with
    | part hr => exact absurd hr List.not_mem_nil
  · exact ⟨hworld, .part (by simp [parts, Branch.process]) hnext⟩
  · exact ⟨hworld, .part (by simp [parts, Branch.process]) hnext⟩

theorem Uses.callsBack (h : p.Uses b w) : p.CallsBack (b.use b.resource) id (b.filled w) w := by
  match p, h with
  | .counted m n, ⟨_, _, h⟩ => exact h

/-- Whoever takes the start of a use calls the use. -/
theorem uses_start {m : Interpreter} (ho : w.isInterrupted m.token = false) : Uses b (.counted m b.start) w := by
  refine ⟨rfl, ho, .of_goOn (m := m) (turn_counted ho _) ?_ (.of_record (b.filled w) (.step b.start.kind m.frames.height))⟩
  rw [Lease.start_run rfl, Except.map_id]
  rfl

end Process

namespace Process.AtRelease

variable {b : Lease} {e : Exit Value Payload} {f : Node → Node} {w : World}

/-- The places of a release have nothing to do with the resource. -/
theorem lent {p : Process} (h : p.AtRelease b e f w) (r : Payload) : p.AtRelease (b.lent r) e f w := by
  match p, h with
  | .popping _ (.value _), h => exact h
  | .counted _ _, h => exact h
  | .finalizing _ _ child, h => exact lent (p := child) h r
  | .joining _ _ _ (.running q :: _), h => exact lent (p := q) h r

/-- What has settled is at no such place. -/
theorem unsettled {p : Process} (h : p.AtRelease b e f w) : p.exit? = none := by
  cases p with
  | settled e => exact h.elim
  | _ => rfl

/-- If the resource lies in its cell there, the release is called. -/
theorem callsBack {p : Process} (h : p.AtRelease b e f w) (hw : b.Holds w) :
    p.CallsBack (b.release b.resource e) f (b.emptied w) w := by
  match p, h with
  | .popping m (.value p), ⟨hf, he, hf'⟩ =>
    subst he hf'
    obtain ⟨fs, hfs⟩ := List.head?_eq_some_iff.mp hf
    obtain ⟨s', hpop, -⟩ := FrameStack.pop?_eq_some hfs
    refine .of_goOn (m := { m with frames := s' }) (c := Node.onExit (Node.releaseAfterUse b.cell b.release) p) (u := w)
      ?_ ?_ (.refl _)
    · simp only [turn, Interpreter.pop, hpop, Lease.resume]
    · rw [Node.onExit_told]
      exact Lease.releaseAfterUse_run hw p.told
  | .counted m n, ⟨hn, ho, he, hf⟩ =>
    subst hn he hf
    have hw' : b.Holds (w.record (.step b.guard.kind m.frames.height)) := hw
    exact .of_goOn (m := m) (turn_counted ho _) (Lease.guard_run hw' rfl) (.of_record (b.emptied w) _)
  | .finalizing m o child, h => exact (callsBack (p := child) h hw).finalizing (unsettled (p := child) h) m o
  | .joining m g seen (.running q :: rest), h => exact (callsBack (p := q) h hw).joining m g seen rest

theorem releasesWith {p : Process} (h : p.AtRelease b e f w) (hw : b.Holds w) : p.ReleasesWith b e w :=
  ⟨f, h, hw, h.callsBack hw⟩

/-- Otherwise nothing is done there. -/
theorem idle {p : Process} (h : p.AtRelease b e f w) (hw : ∀ r, ¬ (b.lent r).Holds w) : w.Alike (p.turn w).world := by
  match p, h with
  | .popping m (.value p), ⟨hf, _, _⟩ =>
    obtain ⟨fs, hfs⟩ := List.head?_eq_some_iff.mp hf
    obtain ⟨s', hpop, -⟩ := FrameStack.pop?_eq_some hfs
    simp only [turn, Interpreter.pop, hpop, Lease.resume, Interpreter.goOn_world, Node.onExit_told,
      Lease.releaseAfterUse_run_idle hw]
    exact .refl w
  | .counted m n, ⟨hn, ho, _, _⟩ =>
    subst hn
    have hw' : ∀ r, ¬ (b.lent r).Holds (w.record (.step b.guard.kind m.frames.height)) := hw
    have hworld : (turn (.counted m b.guard) w).world = w.record (.step b.guard.kind m.frames.height) := by
      rw [turn_counted ho]
      exact (Interpreter.goOn_world m _ _).trans (congrArg Prod.snd (Lease.guard_run_idle hw' rfl))
    rw [hworld]
    exact .of_record w _
  | .finalizing m o child, h =>
    rw [turn_finalizing m o (unsettled (p := child) h)]
    exact idle (p := child) h hw
  | .joining m g seen (.running q :: rest), h =>
    have hworld : (turn (.joining m g seen (.running q :: rest)) w).world = (q.turn w).world := by
      simp only [turn]
      split <;> rfl
    rw [hworld]
    exact idle (p := q) h hw

/-- Where the release is not called although it could be, nothing is done. -/
theorem idle_of_not_releases {p : Process} (h : p.AtRelease b e f w) (hr : ∀ r, ¬ p.ReleasesWith (b.lent r) e w) :
    w.Alike (p.turn w).world :=
  h.idle fun r hw => hr r ((h.lent r).releasesWith hw)

end Process.AtRelease

namespace Process.ReleasesWith

variable {b : Lease} {e : Exit Value Payload} {w : World} {p : Process}

/-- The release is called at its places only. -/
theorem not_releases (h : ∀ r e f, ¬ p.AtRelease (b.lent r) e f w) (r : Payload) (e : Exit Value Payload) :
    ¬ p.ReleasesWith (b.lent r) e w := fun hr => hr.elim fun f hat => h r e f hat.1

theorem holds (h : p.ReleasesWith b e w) : b.Holds w := by
  obtain ⟨_, _, hw, _⟩ := h
  exact hw

/-- The continuation of the use calls the release, if it finds the resource. -/
theorem continued {m : Interpreter} {fs : List Frame} (hf : m.frames.frames = b.resume :: fs) (hw : b.Holds w) (p : Payload) :
    ReleasesWith b p.told (.popping m (.value p)) w :=
  AtRelease.releasesWith ⟨by rw [hf]; rfl, rfl, rfl⟩ hw

/-- The guard calls the release, if it finds the resource. -/
theorem guarded {m m' : Interpreter} (o : Outcome) (ho : w.isInterrupted m'.token = false) (hw : b.Holds w) :
    ReleasesWith b .interrupted (.finalizing m o (.counted m' b.guard)) w :=
  AtRelease.releasesWith (p := .finalizing m o (.counted m' b.guard)) ⟨rfl, ho, rfl, rfl⟩ hw

end Process.ReleasesWith

end Interruptible
