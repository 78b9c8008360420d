import Interruptible.Proofs.Effect.Lease
import Interruptible.Proofs.Machine.Interruption
import Interruptible.Proofs.Machine.Outcomes

/-!
# Releases, once and with the right exit

Two pieces of code can release the resource of a bracket: the continuation of its use, and its guard. Both take the resource
out of its cell, and whoever comes second finds the cell empty. A bracket therefore takes one of three courses
(`Lease.Course`): the use is never called, and nor is the release; or the use has been called, and the interpreter has not
settled; or the release has been called once after the use, with the resource that the acquisition has come to. The release is
told the exit of the effect that the use has built, unless interruption has been noticed in between; then it is told of
interruption (`bracket_releases_once`).
-/

namespace Interruptible

namespace Lease

variable (b : Lease) (base : List Frame)

/-- What the acquisition is continued with. -/
def continuation : Payload → Action Node := fun resource => return (b.lent resource).handedOver

/-- The frames under which the bracket is evaluated, apart from its acquisition and its use. -/
abbrev guardedFrames : List Frame := .finalize b.guard :: base

/-- The frames under which the acquisition is evaluated. -/
abbrev acquireFrames : List Frame := .apply b.continuation :: b.guardedFrames base

/-- The frames that the end of the use, once captured, goes through. -/
abbrev resumeFrames : List Frame := b.resume :: b.guardedFrames base

/-- The frames under which the use is evaluated. -/
abbrev useFrames : List Frame := capture :: b.resumeFrames base

/-- In this turn the acquisition has come to a resource, and the continuation is called with it. -/
def Acquires (r : Payload) (p : Process) (w : World) : Prop :=
  .apply b.continuation r ∈ p.calls w ∧
    ∃ m, (p.turn w).process = .next m (b.lent r).handedOver ∧ m.frames.frames = b.guardedFrames base

/-- A process that is about to run one of the three pieces of code that reach the cell, each in its place. -/
inductive InPlace : Process → Prop where
  /-- The start of the use. -/
  | start {m : Interpreter} (r : Payload) (hf : m.frames.frames = b.useFrames base) :
    InPlace (.counted m (b.lent r).start)
  /-- The continuation of the use. -/
  | resume {m : Interpreter} (p : Payload) (hf : m.frames.frames = b.resumeFrames base) : InPlace (.popping m (.value p))
  /-- The guard. -/
  | guard {m : Interpreter} (o : Outcome) (m' : Interpreter) (hf : m.frames.frames = base) :
    InPlace (.finalizing m o (.counted m' b.guard))

/-- A turn after which the start of the use is no more: it has been taken, or the guard has run. -/
inductive Spent : Process → World → Prop where
  | used {p : Process} {w : World} (r : Payload) (hu : p.Uses (b.lent r) w) : Spent p w
  | ended {m : Interpreter} (o : Outcome) (e : Exit Value Payload) (w : World) (hf : m.frames.frames = base) :
    Spent (.finalizing m o (.settled e)) w

/-- The pieces of a bracket belong to nobody else: in the course of some turns its cell is reached by its own code in its place,
its start is gone when it has been taken or the bracket has ended, and nobody reaches the token that is made for its guard. -/
structure Owned (R : World → World → Prop) (h : History) : Prop where
  surroundings : ∀ w v, R w v → v.cells[b.cell]? = w.cells[b.cell]?
  /-- The use leaves the cell alone. -/
  use : ∀ y ∈ h, ∀ r, y.1.Uses (b.lent r) y.2 → ∀ v, ((b.lent r).filled y.2).Alike v →
    ((b.use r).run v).2.cells[b.cell]? = v.cells[b.cell]?
  /-- The release leaves the cell alone. -/
  release : ∀ y ∈ h, ∀ r e, y.1.ReleasesWith (b.lent r) e y.2 → ∀ v, (b.emptied y.2).Alike v →
    ((b.release r e).run v).2.cells[b.cell]? = v.cells[b.cell]?
  /-- Everybody else does. -/
  turns : ∀ y ∈ h, ¬ b.InPlace base y.1 → (y.1.turn y.2).world.cells[b.cell]? = y.2.cells[b.cell]?
  spent : h.Pairwise fun y z => b.Spent base y.1 y.2 → ∀ r, ¬ z.1.Uses (b.lent r) z.2
  guarded : ∀ y ∈ h, y.1.Isolated b.guard y.2

/-- In this turn neither the use nor the release is called, whatever the resource and the exit, and if an interpreter comes to a
place where a release may be called, nothing is done there. -/
structure Uncalled (y : Process × World) : Prop where
  use : ∀ r, ¬ y.1.Uses (b.lent r) y.2
  release : ∀ r e, ¬ y.1.ReleasesWith (b.lent r) e y.2
  idle : ∀ e f, y.1.AtRelease b e f y.2 → y.2.Alike (y.1.turn y.2).world

/-- In the course of some turns neither the use nor the release is called. -/
def Quiet (h : History) : Prop := ∀ y ∈ h, b.Uncalled y

/-- In this turn, in which the use is called, it panics. -/
def Panics (r : Payload) (y : Process × World) (pn : Panic) : Prop :=
  ((b.use r).run ((b.lent r).filled y.2)).1 = .error pn

/-- In some turns after the one that has called the use, the effect that it has built has been evaluated, and the frame that
captures its exit is about to be popped. A use that has panicked has built a defect. -/
structure Evaluated (r : Payload) (y : Process × World) (h : History) (m : Interpreter) (o : Outcome)
    (e : Exit Value Payload) : Prop where
  above : ∀ x ∈ h, x.1.Above (b.useFrames base)
  frames : m.frames.frames = b.useFrames base
  outcome : o.exit? = some e
  panicked : ∀ pn, b.Panics r y pn → e = .failure (.die pn.defect)

/-- What the release is told, and who calls it, given the turn in which the use was called and those that followed. -/
inductive Told (r : Payload) (y : Process × World) : History → Process → Exit Value Payload → Prop where
  /-- The interpreter has gone on to the continuation of the use: the release is told the exit of the effect that the use has
  built. -/
  | continued {h : History} {m m₁ m₂ m₃ : Interpreter} {o : Outcome} {w w₁ w₂ : World} {e : Exit Value Payload}
      (evaluated : b.Evaluated base r y h m o e) (hf : m₃.frames.frames = b.resumeFrames base)
      (unnoticed : ∀ x ∈ h ++ [(.popping m o, w), (.next m₁ (.succeed (.exit e)), w₁), (.counted m₂ (.succeed (.exit e)), w₂)],
        ¬ x.1.Notices x.2) :
      Told r y (h ++ [(.popping m o, w), (.next m₁ (.succeed (.exit e)), w₁), (.counted m₂ (.succeed (.exit e)), w₂)])
        (.popping m₃ (.value (.exit e))) e
  /-- Interruption has been noticed before that: the guard tells the release of interruption. -/
  | interrupted {h : History} {m m' : Interpreter} (hf : m.frames.frames = base) (hf' : m'.frames.frames = [])
      (noticed : ∃ x ∈ h, x.1.Notices x.2) : Told r y h (.finalizing m .interruption (.counted m' b.guard)) .interrupted

/-- The courses that a bracket can take, told by the turns of its interpreter. -/
inductive Course : History → Process → Prop where
  /-- The use has not been called, and nor has the release. -/
  | unused {h : History} {q : Process} (quiet : b.Quiet h) : Course h q
  /-- The use has been called with what the acquisition has come to. -/
  | inUse {h₁ h₂ : History} {y : Process × World} {q : Process} {r : Payload}
      (acquired : ∃ z ∈ h₁, b.Acquires base r z.1 z.2) (before : b.Quiet h₁) (use : y.1.Uses (b.lent r) y.2)
      (since : b.Quiet h₂) (hq : q.exit? = none) : Course (h₁ ++ y :: h₂) q
  /-- The release has been called afterwards. -/
  | released {h₁ h₂ h₃ : History} {y z : Process × World} {q : Process} {r : Payload} {e : Exit Value Payload}
      (acquired : ∃ z ∈ h₁, b.Acquires base r z.1 z.2) (before : b.Quiet h₁) (use : y.1.Uses (b.lent r) y.2)
      (since : b.Quiet h₂) (release : z.1.ReleasesWith (b.lent r) e z.2) (told : b.Told base r y h₂ z.1 e)
      (after : b.Quiet h₃) : Course (h₁ ++ y :: h₂ ++ z :: h₃) q

end Lease

namespace Lease

variable {b : Lease} {base : List Frame} {R : World → World → Prop} {h : History} {p : Process} {w : World} {r : Payload}
  {e : Exit Value Payload}

/-! ## What the turns do to the cell -/

/-- The continuation of the use is not the frame after an interrupted use. -/
theorem continuation_ne_resume : Frame.apply b.continuation ≠ b.resume := by
  intro h
  nomatch congrFun (Frame.apply.inj h) .unit

/-- The guard of a bracket is not the node that starts the use. -/
theorem guard_ne_start : b.guard ≠ (b.lent r).start := by
  intro h
  nomatch Node.defer.inj h

namespace Owned

variable (howned : b.Owned base R h) (hy : (p, w) ∈ h)
include howned hy

/-- After a release the cell is empty. -/
theorem released (hr : p.ReleasesWith (b.lent r) e w) : b.Lacks (p.turn w).world := by
  have hrelease := howned.release _ hy r e hr
  obtain ⟨_, -, hw, v, -, hv, hturn, -⟩ := hr
  have hempty : v.cells[b.cell]? = some none := by
    rw [hv.cells]
    exact emptied_lacks hw
  show (p.turn w).world.cells[b.cell]? = some none
  rw [hturn]
  exact (hrelease v hv).trans hempty

/-- A release is called in its place. -/
theorem inPlace (hr : p.ReleasesWith (b.lent r) e w) : b.InPlace base p := by
  refine Classical.byContradiction fun hn => ?_
  have hlacks : (p.turn w).world.cells[b.cell]? = some none := howned.released hy hr
  have hholds : w.cells[b.cell]? = some (some r) := hr.holds
  nomatch hlacks.symm.trans ((howned.turns _ hy hn).trans hholds)

/-- The start of the use puts the resource into the cell. -/
theorem used (hu : p.Uses (b.lent r) w) (hw : b.Lacks w) : (b.lent r).Holds (p.turn w).world := by
  obtain ⟨v, -, hv, hturn, -⟩ := hu.callsBack
  have hfilled : (b.lent r).Holds v := by
    unfold Holds
    rw [hv.cells]
    exact filled_holds (.inl hw)
  unfold Holds
  rw [hturn]
  exact (howned.use _ hy r hu v hv).trans hfilled

/-- Every other turn leaves the cell alone. -/
theorem spared (hu : ∀ r, ¬ p.Uses (b.lent r) w) (hr : ∀ r e, ¬ p.ReleasesWith (b.lent r) e w) :
    (p.turn w).world.cells[b.cell]? = w.cells[b.cell]? := by
  have idle : ∀ e f, p.AtRelease b e f w → (p.turn w).world.cells[b.cell]? = w.cells[b.cell]? := fun e f hat => by
    rw [(hat.idle_of_not_releases fun r => hr r e).cells]
  by_cases hp : b.InPlace base p
  · cases hp with
    | @start m r hf =>
      cases ho : w.isInterrupted m.token with
      | true =>
        simp only [Process.turn, ho]
        rfl
      | false => exact absurd (Process.uses_start ho) (hu r)
    | @resume m p hf => exact idle p.told _ ⟨by rw [hf]; rfl, rfl, rfl⟩
    | @guard m o m' hf =>
      cases ho : w.isInterrupted m'.token with
      | true =>
        rw [Process.turn_finalizing m o rfl]
        simp only [Process.turn, ho]
        rfl
      | false => exact idle .interrupted _ ⟨rfl, ho, rfl, rfl⟩
  · exact howned.turns _ hy hp

/-- An empty cell stays empty while the use is not called. -/
theorem lacks (hu : ∀ r, ¬ p.Uses (b.lent r) w) (hw : b.Lacks w) :
    b.Lacks (p.turn w).world ∧ ∀ r e, ¬ p.ReleasesWith (b.lent r) e w := by
  have hr : ∀ r e, ¬ p.ReleasesWith (b.lent r) e w := fun r e hr => by
    have hholds : w.cells[b.cell]? = some (some r) := hr.holds
    nomatch hw.symm.trans hholds
  exact ⟨(howned.spared hy hu hr).trans hw, hr⟩

end Owned

/-! ## The stages of a bracket -/

section

variable (b : Lease) (base : List Frame)

/-- The interpreter has not come to the end of the acquisition. -/
inductive Before (acquire : Node) : Process → Prop where
  | entering {m : Interpreter} (hf : m.frames.frames = base) : Before acquire (.next m (b.bracketed acquire))
  | entered {m : Interpreter} (hf : m.frames.frames = base) : Before acquire (.counted m (b.bracketed acquire))
  | chaining {m : Interpreter} (hf : m.frames.frames = b.guardedFrames base) :
    Before acquire (.next m (acquire.chain b.continuation))
  | chained {m : Interpreter} (hf : m.frames.frames = b.guardedFrames base) :
    Before acquire (.counted m (acquire.chain b.continuation))
  | acquiring {p : Process} (hp : p.Above (b.acquireFrames base)) : Before acquire p
  | acquired {m : Interpreter} (o : Outcome) (hf : m.frames.frames = b.acquireFrames base) : Before acquire (.popping m o)

/-- The nodes that are taken from the end of the acquisition to the start of the use, with the frames under them. -/
inductive Bringing (r : Payload) : Node → List Frame → Prop where
  | handedOver : Bringing r (b.lent r).handedOver (b.guardedFrames base)
  | result : Bringing r (b.lent r).start.result (b.resumeFrames base)
  | start : Bringing r (b.lent r).start (b.useFrames base)

/-- The interpreter is on its way to the start of the use. -/
inductive Handed (r : Payload) : Process → Prop where
  | next {m : Interpreter} {n : Node} (hn : b.Bringing base r n m.frames.frames) : Handed r (.next m n)
  | counted {m : Interpreter} {n : Node} (hn : b.Bringing base r n m.frames.frames) : Handed r (.counted m n)

/-- The use has been called, and the release has not: what has happened since, and where the interpreter is. -/
inductive InUse (r : Payload) (y : Process × World) : History → Process → Prop where
  | evaluating {h : History} {p : Process} (above : ∀ x ∈ h, x.1.Above (b.useFrames base)) (hp : p.Above (b.useFrames base))
      (hpanic : ∀ pn, b.Panics r y pn →
        ∃ m, m.frames.frames = b.useFrames base ∧ (p = .next m (.die pn.defect) ∨ p = .counted m (.die pn.defect))) :
    InUse r y h p
  | ended {h : History} {m : Interpreter} {o : Outcome} (above : ∀ x ∈ h, x.1.Above (b.useFrames base))
      (hf : m.frames.frames = b.useFrames base)
      (hpanic : ∀ pn, b.Panics r y pn → o = .interruption ∨ o = .failure (.die pn.defect)) : InUse r y h (.popping m o)
  | captured {h : History} {m m₁ : Interpreter} {o : Outcome} {w : World} {e : Exit Value Payload}
      (evaluated : b.Evaluated base r y h m o e) (hf : m₁.frames.frames = b.resumeFrames base) :
    InUse r y (h ++ [(.popping m o, w)]) (.next m₁ (.succeed (.exit e)))
  | counted {h : History} {m m₁ m₂ : Interpreter} {o : Outcome} {w w₁ : World} {e : Exit Value Payload}
      (evaluated : b.Evaluated base r y h m o e) (hf : m₂.frames.frames = b.resumeFrames base) :
    InUse r y (h ++ [(.popping m o, w), (.next m₁ (.succeed (.exit e)), w₁)]) (.counted m₂ (.succeed (.exit e)))
  | resuming {h : History} {m m₁ m₂ m₃ : Interpreter} {o : Outcome} {w w₁ w₂ : World} {e : Exit Value Payload}
      (evaluated : b.Evaluated base r y h m o e) (hf : m₃.frames.frames = b.resumeFrames base) :
    InUse r y (h ++ [(.popping m o, w), (.next m₁ (.succeed (.exit e)), w₁), (.counted m₂ (.succeed (.exit e)), w₂)])
      (.popping m₃ (.value (.exit e)))
  | skipping {h : History} {m : Interpreter} (hf : m.frames.frames = b.resumeFrames base) :
    InUse r y h (.popping m .interruption)
  | unguarded {h : History} {m : Interpreter} (hf : m.frames.frames = b.guardedFrames base) :
    InUse r y h (.popping m .interruption)
  | guardNext {h : History} {m m' : Interpreter} (hf : m.frames.frames = base) (hf' : m'.frames.frames = []) :
    InUse r y h (.finalizing m .interruption (.next m' b.guard))
  | guardCounted {h : History} {m m' : Interpreter} (hf : m.frames.frames = base) (hf' : m'.frames.frames = []) :
    InUse r y h (.finalizing m .interruption (.counted m' b.guard))

/-- The use will not be called any more. -/
inductive Over (h : History) : Process → Prop where
  | spent {p : Process} {y : Process × World} (hy : y ∈ h) (hs : b.Spent base y.1 y.2) : Over h p
  | interrupted {p : Process} (hp : p.Interrupted) : Over h p
  | failed {m : Interpreter} (c : Cause Value) (hf : m.frames.frames = b.guardedFrames base) : Over h (.next m (.fail c))
  | counted {m : Interpreter} (c : Cause Value) (hf : m.frames.frames = b.guardedFrames base) : Over h (.counted m (.fail c))
  | failing {m : Interpreter} (c : Cause Value) (hf : m.frames.frames = b.guardedFrames base) :
    Over h (.popping m (.failure c))
  | guarding {m : Interpreter} (o : Outcome) (child : Process) (hf : m.frames.frames = base) : Over h (.finalizing m o child)

/-- Where a bracket is in its course, after some turns. -/
inductive Stage (acquire : Node) : History → Process → World → Prop where
  | before {h : History} {p : Process} {w : World} (quiet : b.Quiet h) (hw : b.Lacks w) (hp : b.Before base acquire p) :
    Stage acquire h p w
  | handed {h : History} {p : Process} {w : World} (r : Payload) (acquired : ∃ z ∈ h, b.Acquires base r z.1 z.2)
      (quiet : b.Quiet h) (hw : b.Lacks w) (hp : b.Handed base r p) : Stage acquire h p w
  | pending {h₁ h₂ : History} {y : Process × World} {p : Process} {w : World} (r : Payload)
      (acquired : ∃ z ∈ h₁, b.Acquires base r z.1 z.2) (before : b.Quiet h₁) (use : y.1.Uses (b.lent r) y.2)
      (since : b.Quiet h₂) (hw : (b.lent r).Holds w) (noticing : p.Noticing h₂) (hp : b.InUse base r y h₂ p) :
    Stage acquire (h₁ ++ y :: h₂) p w
  | unused {h : History} {p : Process} {w : World} (quiet : b.Quiet h) (hw : b.Lacks w) (hover : b.Over base h p) :
    Stage acquire h p w
  | released {h₁ h₂ h₃ : History} {y z : Process × World} {p : Process} {w : World} (r : Payload) (e : Exit Value Payload)
      (acquired : ∃ z ∈ h₁, b.Acquires base r z.1 z.2) (before : b.Quiet h₁) (use : y.1.Uses (b.lent r) y.2)
      (since : b.Quiet h₂) (release : z.1.ReleasesWith (b.lent r) e z.2) (told : b.Told base r y h₂ z.1 e)
      (after : b.Quiet h₃) (hw : b.Lacks w) : Stage acquire (h₁ ++ y :: h₂ ++ z :: h₃) p w

end

/-! ## One turn of a bracket -/

/-- The cell of a bracket has been its own in the first part of a run. -/
theorem Owned.prefix {h' : History} (howned : b.Owned base R (h ++ h')) : b.Owned base R h where
  surroundings := howned.surroundings
  use y hy := howned.use y (List.mem_append_left _ hy)
  release y hy := howned.release y (List.mem_append_left _ hy)
  turns y hy := howned.turns y (List.mem_append_left _ hy)
  spent := (List.pairwise_append.mp howned.spent).1
  guarded y hy := howned.guarded y (List.mem_append_left _ hy)

/-- A bracket stays quiet in a turn in which its resource is neither used nor released. -/
theorem Quiet.snoc (hq : b.Quiet h) (hu : ∀ r, ¬ p.Uses (b.lent r) w) (hr : ∀ r e, ¬ p.ReleasesWith (b.lent r) e w) :
    b.Quiet (h ++ [(p, w)]) := by
  intro y hy
  rcases List.mem_append.mp hy with hy | hy
  · exact hq y hy
  · rw [List.mem_singleton.mp hy]
    exact ⟨hu, hr, fun e f hat => hat.idle_of_not_releases fun r => hr r e⟩

/-- When the start of the use is spent, no later turn takes it. -/
theorem Owned.not_uses (howned : b.Owned base R (h ++ [(p, w)])) {y : Process × World} (hy : y ∈ h)
    (hs : b.Spent base y.1 y.2) : ∀ r, ¬ p.Uses (b.lent r) w :=
  (List.pairwise_append.mp howned.spent).2.2 y hy (p, w) List.mem_cons_self hs

namespace Over

variable {acquire : Node}

/-- The use is not called. -/
theorem not_uses (hover : b.Over base h p) (howned : b.Owned base R (h ++ [(p, w)])) : ∀ r, ¬ p.Uses (b.lent r) w := by
  intro r hu
  cases hover with
  | spent hy hs => exact howned.not_uses hy hs r hu
  | interrupted hp =>
    match p, hu with
    | .counted m n, _ => exact hp
  | counted c hf => nomatch hu.1
  | _ => exact hu

/-- And it will not be called later. -/
theorem turn (hover : b.Over base h p) (hx : p.exit? = none) : b.Over base (h ++ [(p, w)]) (p.turn w).process := by
  cases hover with
  | spent hy hs => exact .spent (List.mem_append_left _ hy) hs
  | interrupted hp => exact .interrupted (Process.turn_interrupted hp w)
  | @failed m c hf =>
    rw [(Process.turn_next m _ w).1]
    exact .counted c hf
  | @counted m c hf =>
    cases ho : w.isInterrupted m.token with
    | true =>
      simp only [Process.turn, ho]
      exact .interrupted trivial
    | false =>
      rw [Process.turn_counted ho]
      exact .failing c hf
  | failing c hf =>
    obtain ⟨s', hs, hpop⟩ := Interpreter.pop_finalize hf (.failure c) w
    simp only [Process.turn, hpop]
    exact .guarding _ _ hs
  | @guarding m o child hf =>
    cases hc : child.exit? with
    | none =>
      rw [Process.turn_finalizing m o hc]
      exact .guarding _ _ hf
    | some e =>
      obtain rfl := Process.exit?_eq_some hc
      exact .spent (List.mem_append_right _ List.mem_cons_self) (.ended o e w hf)

end Over

/-- The acquisition is not evaluated under the frames of the use. -/
theorem acquireFrames_ne_useFrames (hp : p.Above (b.acquireFrames base)) : p.frames ≠ b.useFrames base := by
  intro hf
  obtain ⟨above, habove, -⟩ := hp
  rw [habove] at hf
  have hlen := congrArg List.length hf
  simp only [List.length_append, List.length_cons] at hlen
  match above with
  | [] => nomatch hf
  | [_] => exact continuation_ne_resume (List.cons.inj (List.cons.inj hf).2).1
  | _ :: _ :: _ =>
    simp only [List.length_cons] at hlen
    omega

/-- While the acquisition is evaluated the use is not called. -/
theorem Owned.not_uses_above (howned : b.Owned base R h) (hy : (p, w) ∈ h) (hp : p.Above (b.acquireFrames base))
    (hw : b.Lacks w) : ∀ r, ¬ p.Uses (b.lent r) w := by
  intro r hu
  by_cases hplace : b.InPlace base p
  · match p, hplace, hu with
    | .counted m _, .start _ hf, _ => exact absurd hf (acquireFrames_ne_useFrames hp)
  · have hholds := howned.used hy hu hw
    have hlacks : (p.turn w).world.cells[b.cell]? = some none := (howned.turns _ hy hplace).trans hw
    nomatch hlacks.symm.trans hholds

section

variable {acquire : Node} (howned : b.Owned base R (h ++ [(p, w)])) (quiet : b.Quiet h) (hw : b.Lacks w)
  (hu : ∀ r, ¬ p.Uses (b.lent r) w)

include howned quiet hw hu

/-- A turn after which the use will not be called any more. -/
theorem Stage.unused_turn (hover : b.Over base (h ++ [(p, w)]) (p.turn w).process) :
    b.Stage base acquire (h ++ [(p, w)]) (p.turn w).process (p.turn w).world := by
  obtain ⟨hw', hr⟩ := howned.lacks (List.mem_append_right _ List.mem_cons_self) hu hw
  exact .unused (quiet.snoc hu hr) hw' hover

/-- A turn after which the acquisition has not come to its end. -/
theorem Stage.before_turn (hp' : b.Before base acquire (p.turn w).process) :
    b.Stage base acquire (h ++ [(p, w)]) (p.turn w).process (p.turn w).world := by
  obtain ⟨hw', hr⟩ := howned.lacks (List.mem_append_right _ List.mem_cons_self) hu hw
  exact .before (quiet.snoc hu hr) hw' hp'

/-- A turn in which the continuation of the acquisition is called. -/
theorem Stage.acquired_turn {m : Interpreter} (hcall : .apply b.continuation r ∈ p.calls w)
    (hturn : (p.turn w).process = .next m (b.lent r).handedOver) (hm : m.frames.frames = b.guardedFrames base) :
    b.Stage base acquire (h ++ [(p, w)]) (p.turn w).process (p.turn w).world := by
  have hy : (p, w) ∈ h ++ [(p, w)] := List.mem_append_right _ List.mem_cons_self
  obtain ⟨hw', hr⟩ := howned.lacks hy hu hw
  refine .handed r ⟨(p, w), hy, hcall, m, hturn, hm⟩ (quiet.snoc hu hr) hw' ?_
  rw [hturn]
  exact .next (by rw [hm]; exact .handedOver)

/-- A turn after which the use is still to be called. -/
theorem Stage.handed_turn (acquired : ∃ z ∈ h, b.Acquires base r z.1 z.2) (hp' : b.Handed base r (p.turn w).process) :
    b.Stage base acquire (h ++ [(p, w)]) (p.turn w).process (p.turn w).world := by
  obtain ⟨hw', hr⟩ := howned.lacks (List.mem_append_right _ List.mem_cons_self) hu hw
  obtain ⟨z, hz, hacquired⟩ := acquired
  exact .handed r ⟨z, List.mem_append_left _ hz, hacquired⟩ (quiet.snoc hu hr) hw' hp'

/-- A turn in which the token is found to be tripped. -/
theorem Stage.noticed_turn {m : Interpreter} {n : Node} (hp : p = .counted m n) (ho : w.isInterrupted m.token = true) :
    b.Stage base acquire (h ++ [(p, w)]) (p.turn w).process (p.turn w).world := by
  refine Stage.unused_turn howned quiet hw hu (.interrupted ?_)
  rw [hp]
  simp only [Process.turn, ho]
  trivial

end

/-- The acquisition is taken together with its continuation. -/
theorem Before.turn_chained {acquire : Node} {m : Interpreter} (hf : m.frames.frames = b.guardedFrames base)
    (howned : b.Owned base R (h ++ [(.counted m (acquire.chain b.continuation), w)])) (quiet : b.Quiet h) (hw : b.Lacks w)
    (ho : w.isInterrupted m.token = false) :
    b.Stage base acquire (h ++ [(.counted m (acquire.chain b.continuation), w)])
      (Process.turn (.counted m (acquire.chain b.continuation)) w).process
      (Process.turn (.counted m (acquire.chain b.continuation)) w).world := by
  have hu : ∀ r, ¬ Process.Uses (b.lent r) (.counted m (acquire.chain b.continuation)) w := fun r hu => nomatch hu.1
  have hcalls : Process.calls (.counted m (acquire.chain b.continuation)) w =
      (acquire.chain b.continuation).calls m.env m.token (w.record (.step "chain" m.frames.height)) := by
    simp only [Process.calls, ho]
    rfl
  have hturn : (Process.turn (.counted m (acquire.chain b.continuation)) w).process =
      (m.take (acquire.chain b.continuation) w).process := by
    rw [Process.turn_counted ho]
  cases acquire with
  | succeed r => exact Stage.acquired_turn howned quiet hw hu (by rw [hcalls]; exact List.mem_cons_self) hturn hf
  | succeedLazy thunk =>
    cases heval : (evaluate thunk (w.record (.step "chain" m.frames.height))).1 with
    | ok r =>
      refine Stage.acquired_turn (r := r) howned quiet hw hu ?_ ?_ hf
      · rw [hcalls]
        simp only [Node.calls, heval]
        exact List.mem_cons_of_mem _ List.mem_cons_self
      · rw [hturn]
        simp only [Interpreter.take]
        split
        · rename_i r' w' h'
          obtain rfl := Except.ok.inj (heval.symm.trans (congrArg Prod.fst h'))
          rfl
        · rename_i c w' h'
          cases heval.symm.trans (congrArg Prod.fst h')
    | error c =>
      refine Stage.unused_turn howned quiet hw hu ?_
      rw [hturn]
      simp only [Interpreter.take]
      split
      · rename_i r' w' h'
        cases heval.symm.trans (congrArg Prod.fst h')
      · exact .failed _ hf
  | _ =>
    refine Stage.before_turn howned quiet hw hu ?_
    rw [hturn]
    exact .acquiring (.next (congrArg (Frame.apply b.continuation :: ·) hf))

/-- The continuation of the acquisition is popped. -/
theorem Before.turn_acquired {acquire : Node} {m : Interpreter} (o : Outcome) (hf : m.frames.frames = b.acquireFrames base)
    (howned : b.Owned base R (h ++ [(.popping m o, w)])) (quiet : b.Quiet h) (hw : b.Lacks w) :
    b.Stage base acquire (h ++ [(.popping m o, w)]) (Process.turn (.popping m o) w).process
      (Process.turn (.popping m o) w).world := by
  have hu : ∀ r, ¬ Process.Uses (b.lent r) (.popping m o) w := fun _ => id
  obtain ⟨s', hpop, hs⟩ := FrameStack.pop?_eq_some hf
  have hturn : (Process.turn (.popping m o) w).process = (m.pop o w).process := rfl
  cases o with
  | value r =>
    refine Stage.acquired_turn (r := r) (m := { m with frames := s' }) howned quiet hw hu ?_ ?_ hs
    · simp only [Process.calls, hf]
      exact List.mem_cons_self
    · rw [hturn]
      simp only [Interpreter.pop, hpop]
      rfl
  | failure c =>
    refine Stage.unused_turn howned quiet hw hu ?_
    rw [hturn]
    simp only [Interpreter.pop, hpop]
    exact .failing c hs
  | interruption =>
    refine Stage.unused_turn howned quiet hw hu (.interrupted ?_)
    rw [hturn]
    simp only [Interpreter.pop, hpop]
    trivial

/-- Until the end of the acquisition. -/
theorem Before.turn {acquire : Node} (hp : b.Before base acquire p) (howned : b.Owned base R (h ++ [(p, w)]))
    (quiet : b.Quiet h) (hw : b.Lacks w) :
    b.Stage base acquire (h ++ [(p, w)]) (p.turn w).process (p.turn w).world := by
  cases hp with
  | @entering m hf =>
    refine Stage.before_turn howned quiet hw (fun _ => id) ?_
    rw [(Process.turn_next m _ w).1]
    exact .entered hf
  | @entered m hf =>
    have hu : ∀ r, ¬ Process.Uses (b.lent r) (.counted m (b.bracketed acquire)) w := fun r hu => by cases hu.1
    cases ho : w.isInterrupted m.token with
    | true => exact Stage.noticed_turn howned quiet hw hu rfl ho
    | false =>
      refine Stage.before_turn howned quiet hw hu ?_
      rw [Process.turn_counted ho]
      exact .chaining (congrArg (Frame.finalize b.guard :: ·) hf)
  | @chaining m hf =>
    refine Stage.before_turn howned quiet hw (fun _ => id) ?_
    rw [(Process.turn_next m _ w).1]
    exact .chained hf
  | @chained m hf =>
    cases ho : w.isInterrupted m.token with
    | true => exact Stage.noticed_turn howned quiet hw (fun r hu => by cases hu.1) rfl ho
    | false => exact turn_chained hf howned quiet hw ho
  | acquiring hp =>
    refine Stage.before_turn howned quiet hw
      (howned.not_uses_above (List.mem_append_right _ List.mem_cons_self) hp hw) ?_
    rcases hp.turn (List.cons_ne_nil _ _) w with habove | ⟨m, o, hpop, hf⟩
    · exact .acquiring habove
    · rw [hpop]
      exact .acquired o hf
  | acquired o hf => exact turn_acquired o hf howned quiet hw

/-- The start of the use is taken, and what the use has built comes next: the node that is taken leaves a note in the world, of
which the use knows nothing. -/
theorem start_next {m : Interpreter} (ho : w.isInterrupted m.token = false) :
    (Process.turn (.counted m (b.lent r).start) w).process =
      .next m (Node.built ((b.use r).run ((b.lent r).filled w)).1) := by
  have hnote := World.Alike.of_record ((b.lent r).filled w) (.step (b.lent r).start.kind m.frames.height)
  rw [Process.turn_counted ho, ((b.use r).run_alike hnote).1]
  exact (congrArg Turn.process (m.goOn_eq _ _)).trans
    (congrArg (fun x => Process.next m (Node.built x.1)) (start_run (b := b.lent r) rfl _))

/-- From the end of the acquisition to the start of the use. -/
theorem Handed.turn {acquire : Node} (hp : b.Handed base r p) (howned : b.Owned base R (h ++ [(p, w)]))
    (acquired : ∃ z ∈ h, b.Acquires base r z.1 z.2) (quiet : b.Quiet h) (hw : b.Lacks w) :
    b.Stage base acquire (h ++ [(p, w)]) (p.turn w).process (p.turn w).world := by
  cases hp with
  | @next m n hn =>
    refine Stage.handed_turn howned quiet hw (fun _ => id) acquired ?_
    rw [(Process.turn_next m _ w).1]
    exact .counted hn
  | @counted m n hn =>
    cases ho : w.isInterrupted m.token with
    | true =>
      exact Stage.noticed_turn howned quiet hw (fun r hu => by cases ho.symm.trans hu.2.1) rfl ho
    | false =>
      generalize hfs : m.frames.frames = fs at hn
      cases hn with
      | handedOver =>
        refine Stage.handed_turn howned quiet hw (fun r hu => by cases hu.1) acquired ?_
        rw [Process.turn_counted ho]
        refine .next (m := m.push b.resume) ?_
        rw [Interpreter.push, FrameStack.frames_push, hfs]
        exact .result
      | result =>
        refine Stage.handed_turn howned quiet hw (fun r hu => by cases hu.1) acquired ?_
        rw [Process.turn_counted ho]
        refine .next (m := m.push capture) ?_
        rw [Interpreter.push, FrameStack.frames_push, hfs]
        exact .start
      | start =>
        have huse : Process.Uses (b.lent r) (.counted m (b.lent r).start) w := Process.uses_start ho
        have hturn := start_next (b := b) (r := r) ho
        have since : b.Quiet [] := List.forall_mem_nil _
        have hy := List.mem_append_right h (List.mem_cons_self (a := (Process.counted m (b.lent r).start, w)) (l := []))
        refine .pending r acquired quiet huse since (howned.used hy huse hw) ?_ ?_
        · rw [hturn]
          exact ⟨fun h => h.elim, fun _ => List.forall_mem_nil _⟩
        · rw [hturn]
          refine .evaluating (List.forall_mem_nil _) (.next hfs) fun pn hpanic => ⟨m, hfs, .inl ?_⟩
          exact congrArg (fun x => Process.next m (Node.built x)) hpanic

/-- A defect that is about to be taken. -/
theorem counted_die (m : Interpreter) (d : Defect) (w : World) :
    ∃ o, (Process.turn (.counted m (.die d)) w).process = .popping m o ∧ (o = .interruption ∨ o = .failure (.die d)) := by
  cases ho : w.isInterrupted m.token with
  | true =>
    simp only [Process.turn, ho]
    exact ⟨_, rfl, .inl rfl⟩
  | false =>
    rw [Process.turn_counted ho]
    exact ⟨_, rfl, .inr rfl⟩

/-- While the use is evaluated the release is not called. -/
theorem Owned.not_releases_above (howned : b.Owned base R h) (hy : (p, w) ∈ h) (hp : p.Above (b.useFrames base)) :
    ∀ r e, ¬ p.ReleasesWith (b.lent r) e w := by
  intro r e hr
  obtain ⟨above, hf, -⟩ := hp
  have hlen := congrArg List.length hf
  simp only [List.length_append, List.length_cons] at hlen
  match p, howned.inPlace hy hr, hr with
  | .counted m _, .start r' _, ⟨_, hat, _⟩ => exact guard_ne_start hat.1.symm
  | .popping m _, .resume _ hf, _ =>
    rw [show (Process.popping _ _).frames = m.frames.frames from rfl, hf] at hlen
    simp only [List.length_cons] at hlen
    omega
  | .finalizing m _ _, .guard _ _ hf, _ =>
    rw [show (Process.finalizing _ _ _).frames = m.frames.frames from rfl, hf] at hlen
    omega

/-- A process that uses the resource has not settled. -/
theorem InUse.unsettled {y : Process × World} (hp : b.InUse base r y h p) : p.exit? = none := by
  cases hp with
  | evaluating _ hp _ => exact hp.unsettled nofun
  | _ => rfl

/-- A turn in which the effect that the use has built is evaluated. -/
theorem InUse.turn_evaluating {y : Process × World} (above : ∀ x ∈ h, x.1.Above (b.useFrames base))
    (hp : p.Above (b.useFrames base))
    (hpanic : ∀ pn, b.Panics r y pn →
      ∃ m, m.frames.frames = b.useFrames base ∧ (p = .next m (.die pn.defect) ∨ p = .counted m (.die pn.defect))) :
    b.InUse base r y (h ++ [(p, w)]) (p.turn w).process := by
  have above' : ∀ x ∈ h ++ [(p, w)], x.1.Above (b.useFrames base) := by
    intro x hx
    rcases List.mem_append.mp hx with hx | hx
    · exact above x hx
    · rw [List.mem_singleton.mp hx]
      exact hp
  rcases hp.turn (List.cons_ne_nil _ _) w with habove | ⟨m, o, hpop, hf⟩
  · refine .evaluating above' habove fun pn hpn => ?_
    obtain ⟨m, hm, rfl | rfl⟩ := hpanic pn hpn
    · exact ⟨m.tick, hm, .inr (Process.turn_next m _ w).1⟩
    · obtain ⟨o, hturn, -⟩ := counted_die m pn.defect w
      rw [hturn] at habove
      exact absurd habove (Process.Above.not_popping hm)
  · rw [hpop]
    refine .ended above' hf fun pn hpn => ?_
    obtain ⟨m', hm, rfl | rfl⟩ := hpanic pn hpn
    · rw [(Process.turn_next m' _ w).1] at hpop
      cases hpop
    · obtain ⟨o', hturn, ho'⟩ := counted_die m' pn.defect w
      rw [(Process.popping.inj (hpop.symm.trans hturn)).2]
      exact ho'

/-- The turn in which the exit of that effect is captured, or interruption skips the frame that would capture it. -/
theorem InUse.turn_ended {y : Process × World} {m : Interpreter} {o : Outcome}
    (above : ∀ x ∈ h, x.1.Above (b.useFrames base)) (hf : m.frames.frames = b.useFrames base)
    (hpanic : ∀ pn, b.Panics r y pn → o = .interruption ∨ o = .failure (.die pn.defect)) :
    b.InUse base r y (h ++ [(.popping m o, w)]) (Process.turn (.popping m o) w).process := by
  obtain ⟨s', hpop, hs⟩ := FrameStack.pop?_eq_some hf
  have hturn : (Process.turn (.popping m o) w).process = (m.pop o w).process := rfl
  cases o with
  | value p =>
    have hnext : (m.pop (.value p) w).process = .next { m with frames := s' } (.succeed (.exit (.success p))) := by
      simp only [Interpreter.pop, hpop]
      rfl
    rw [hturn, hnext]
    exact .captured ⟨above, hf, rfl, fun pn hpn => (hpanic pn hpn).elim (fun h => by cases h) fun h => by cases h⟩ hs
  | failure c =>
    have hnext : (m.pop (.failure c) w).process = .next { m with frames := s' } (.succeed (.exit (.failure c))) := by
      simp only [Interpreter.pop, hpop]
      rfl
    rw [hturn, hnext]
    refine .captured ⟨above, hf, rfl, fun pn hpn => ?_⟩ hs
    rcases hpanic pn hpn with hi | hc
    · cases hi
    · rw [Outcome.failure.inj hc]
  | interruption =>
    have hnext : (m.pop .interruption w).process = .popping { m with frames := s' } .interruption := by
      simp only [Interpreter.pop, hpop]
      rfl
    rw [hturn, hnext]
    exact .skipping hs

/-- The turn in which the captured exit is handed on, unless interruption is noticed in it. -/
theorem InUse.turn_counted {y : Process × World} {m m₁ m₂ : Interpreter} {o : Outcome} {w₀ w₁ : World}
    (evaluated : b.Evaluated base r y h m o e) (hf : m₂.frames.frames = b.resumeFrames base) :
    b.InUse base r y (h ++ [(.popping m o, w₀), (.next m₁ (.succeed (.exit e)), w₁)] ++ [(.counted m₂ (.succeed (.exit e)), w)])
      (Process.turn (.counted m₂ (.succeed (.exit e))) w).process := by
  cases ho : w.isInterrupted m₂.token with
  | true =>
    have hturn : (Process.turn (.counted m₂ (.succeed (.exit e))) w).process = .popping m₂ .interruption := by
      simp only [Process.turn, ho]
      rfl
    rw [hturn]
    exact .skipping hf
  | false =>
    have hturn : (Process.turn (.counted m₂ (.succeed (.exit e))) w).process = .popping m₂ (.value (.exit e)) := by
      rw [Process.turn_counted ho]
      rfl
    rw [hturn, List.append_assoc]
    exact .resuming evaluated hf

/-- The frame that captures the exit of the use does not call the release. -/
theorem not_releases_of_ended {m : Interpreter} {o : Outcome} (hf : m.frames.frames = b.useFrames base) :
    ∀ r e, ¬ Process.ReleasesWith (b.lent r) e (.popping m o) w := by
  refine Process.ReleasesWith.not_releases fun r e f hat => ?_
  cases o with
  | value p =>
    have htop := hat.1
    rw [hf] at htop
    nomatch htop
  | _ => exact hat

/-- A turn after which the release is still to be called, or in which it is called and told its exit. -/
theorem InUse.turn_or_told {y : Process × World} {h₂ : History} (hp : b.InUse base r y h₂ p) (howned : b.Owned base R h)
    (hy : (p, w) ∈ h) (hw : (b.lent r).Holds w) (noticing : p.Noticing h₂) :
    ((∀ r e, ¬ p.ReleasesWith (b.lent r) e w) ∧ b.InUse base r y (h₂ ++ [(p, w)]) (p.turn w).process) ∨
      ∃ e, p.ReleasesWith (b.lent r) e w ∧ b.Told base r y h₂ p e := by
  cases hp with
  | evaluating above hp hpanic => exact .inl ⟨howned.not_releases_above hy hp, turn_evaluating above hp hpanic⟩
  | ended above hf hpanic => exact .inl ⟨not_releases_of_ended hf, turn_ended above hf hpanic⟩
  | @captured h m m₁ o w₀ e evaluated hf =>
    refine .inl ⟨Process.ReleasesWith.not_releases fun _ _ _ => id, ?_⟩
    rw [(Process.turn_next m₁ (.succeed (.exit e)) w).1, List.append_assoc]
    exact .counted evaluated hf
  | counted evaluated hf =>
    refine .inl ⟨Process.ReleasesWith.not_releases fun _ _ _ hat => ?_, turn_counted evaluated hf⟩
    cases hat.1
  | resuming evaluated hf =>
    exact .inr ⟨_, .continued (b := b.lent r) hf hw _, .continued evaluated hf (noticing.2 id)⟩
  | @skipping _ m hf =>
    obtain ⟨s', hpop, hs⟩ := FrameStack.pop?_eq_some hf
    have hturn : (Process.turn (.popping m .interruption) w).process = .popping { m with frames := s' } .interruption := by
      simp only [Process.turn, Interpreter.pop, hpop]
      rfl
    refine .inl ⟨Process.ReleasesWith.not_releases fun _ _ _ => id, ?_⟩
    rw [hturn]
    exact .unguarded hs
  | @unguarded _ m hf =>
    obtain ⟨s', hs, hpop⟩ := Interpreter.pop_finalize hf .interruption w
    have hturn : (Process.turn (.popping m .interruption) w).process =
        .finalizing { m with frames := s' } .interruption (.start b.guard m.env w.newToken.1 m.interval) := by
      simp only [Process.turn, hpop]
    refine .inl ⟨Process.ReleasesWith.not_releases fun _ _ _ => id, ?_⟩
    rw [hturn]
    exact .guardNext hs rfl
  | @guardNext _ m m' hf hf' =>
    have hturn : (Process.turn (.finalizing m .interruption (.next m' b.guard)) w).process =
        .finalizing m .interruption (.counted m'.tick b.guard) := by
      rw [Process.turn_finalizing m _ rfl, (Process.turn_next m' _ w).1]
    refine .inl ⟨Process.ReleasesWith.not_releases fun _ _ _ => id, ?_⟩
    rw [hturn]
    exact .guardCounted hf hf'
  | guardCounted hf hf' =>
    exact .inr ⟨.interrupted, .guarded (b := b.lent r) .interruption (howned.guarded _ hy rfl) hw,
      .interrupted hf hf' (noticing.1 trivial)⟩

/-- From the start of the use to the release. -/
theorem InUse.turn {acquire : Node} {h₁ h₂ : History} {y : Process × World} (hp : b.InUse base r y h₂ p)
    (howned : b.Owned base R (h₁ ++ y :: h₂ ++ [(p, w)])) (acquired : ∃ z ∈ h₁, b.Acquires base r z.1 z.2)
    (before : b.Quiet h₁) (use : y.1.Uses (b.lent r) y.2) (since : b.Quiet h₂) (hw : (b.lent r).Holds w)
    (noticing : p.Noticing h₂) :
    b.Stage base acquire (h₁ ++ y :: h₂ ++ [(p, w)]) (p.turn w).process (p.turn w).world := by
  have hy : (p, w) ∈ h₁ ++ y :: h₂ ++ [(p, w)] := List.mem_append_right _ List.mem_cons_self
  rcases hp.turn_or_told howned hy hw noticing with ⟨hr, hp'⟩ | ⟨e, hr, htold⟩
  · have hu : ∀ r, ¬ p.Uses (b.lent r) w :=
      howned.not_uses (List.mem_append_right _ List.mem_cons_self) (.used r use)
    have hw' := (howned.spared hy hu hr).trans hw
    rw [List.append_assoc, List.cons_append]
    exact .pending r acquired before use (since.snoc hu hr) hw' (noticing.turn hp'.unsettled) hp'
  · exact .released r e acquired before use since hr htold (List.forall_mem_nil _) (howned.released hy hr)

/-- A turn leads from one stage of a bracket to another. -/
theorem Stage.turn {acquire : Node} (hp : b.Stage base acquire h p w) (howned : b.Owned base R (h ++ [(p, w)]))
    (hx : p.exit? = none) : b.Stage base acquire (h ++ [(p, w)]) (p.turn w).process (p.turn w).world := by
  cases hp with
  | before quiet hw hp => exact hp.turn howned quiet hw
  | handed r acquired quiet hw hp => exact hp.turn howned acquired quiet hw
  | pending r acquired before use since hw noticing hp => exact hp.turn howned acquired before use since hw noticing
  | unused quiet hw hover => exact .unused_turn howned quiet hw (hover.not_uses howned) (hover.turn hx)
  | @released h₁ h₂ h₃ y z _ _ r e acquired before use since release told after hw =>
    have hu := howned.not_uses (y := y) (by simp) (.used r use)
    obtain ⟨hw', hr⟩ := howned.lacks (List.mem_append_right _ List.mem_cons_self) hu hw
    rw [List.append_assoc, List.cons_append]
    exact .released r e acquired before use since release told (after.snoc hu hr) hw'

/-- What others do to the world does not matter as long as they leave the cell alone. -/
theorem Stage.moved {acquire : Node} {v : World} (hp : b.Stage base acquire h p w)
    (hv : v.cells[b.cell]? = w.cells[b.cell]?) : b.Stage base acquire h p v := by
  cases hp with
  | before quiet hw hp => exact .before quiet (hv.trans hw) hp
  | handed r acquired quiet hw hp => exact .handed r acquired quiet (hv.trans hw) hp
  | pending r acquired before use since hw noticing hp => exact .pending r acquired before use since (hv.trans hw) noticing hp
  | unused quiet hw hover => exact .unused quiet (hv.trans hw) hover
  | released r e acquired before use since release told after hw =>
    exact .released r e acquired before use since release told after (hv.trans hw)

/-- Each stage is one of a course. -/
theorem Stage.course {acquire : Node} (hp : b.Stage base acquire h p w) : b.Course base h p := by
  cases hp with
  | before quiet => exact .unused quiet
  | handed r _ quiet => exact .unused quiet
  | pending r acquired before use since _ _ hp => exact .inUse acquired before use since hp.unsettled
  | unused quiet => exact .unused quiet
  | released r e acquired before use since release told after =>
    exact .released acquired before use since release told after

/-- A bracket starts with a new cell. -/
theorem Stage.start (acquire : Node) (hcell : b.cell = w.cells.size) {m : Interpreter} (hf : m.frames.frames = base) :
    b.Stage base acquire [] (.next m (b.bracketed acquire)) { w with cells := w.cells.push none } := by
  refine .before (List.forall_mem_nil _) ?_ (.entering hf)
  unfold Lacks
  rw [hcell, Array.getElem?_push_size]

/-- A run leads from stage to stage. -/
theorem Stage.run {acquire : Node} {q : Process} {v : World} {h' : History} (run : Process.Run R p w h' q v)
    (hp : b.Stage base acquire h p w) (howned : b.Owned base R (h ++ h')) : b.Stage base acquire (h ++ h') q v := by
  induction run generalizing h with
  | done => rwa [List.append_nil]
  | @turn p q w v h' hx _ ih =>
    have hsplit : h ++ (p, w) :: h' = h ++ [(p, w)] ++ h' := by rw [List.append_assoc]; rfl
    rw [hsplit] at howned ⊢
    exact ih (hp.turn howned.prefix hx) howned
  | moved hm _ ih => exact ih (hp.moved (howned.surroundings _ _ hm)) howned

end Lease

/-- In every run of a bracket the release is called at most once, and only after the use, which is called with what the
acquisition has come to; a use that has been called is followed by the release by the time the interpreter settles; and the
release is told the exit of the effect that the use has built, or interruption if that has been noticed before. -/
theorem bracket_releases_once {R : World → World → Prop} {acquire n : Node} {b : Lease} {m : Interpreter} {w₀ w v : World}
    {h : History} {q : Process} (hn : (Node.bracketExit acquire b.use b.release).run w₀ = (.ok n, w))
    (hcell : b.cell = w₀.cells.size) (run : Process.Run R (.next m n) w h q v)
    (howned : b.Owned m.frames.frames R h) : b.Course m.frames.frames h q := by
  rw [Lease.bracketExit_run hcell] at hn
  obtain ⟨hnode, rfl⟩ := Prod.mk.inj hn
  obtain rfl := Except.ok.inj hnode
  exact ((Lease.Stage.start acquire hcell rfl).run run howned).course

/-- An interpreter is about to take a deferred node, as the start of a use is one. -/
def Process.defers : Process → Bool
  | .counted _ (.defer _) => true
  | _ => false

/-- A finalizer has settled. -/
def Process.finalized : Process → Bool
  | .finalizing _ _ (.settled _) => true
  | _ => false

theorem Process.Uses.defers {b : Lease} {p : Process} {w : World} (h : p.Uses b w) : p.defers = true := by
  match p, h with
  | .counted m n, ⟨hn, _⟩ =>
    rw [hn]
    rfl

theorem Lease.Spent.defers_or_finalized {b : Lease} {base : List Frame} {p : Process} {w : World} (h : b.Spent base p w) :
    (p.defers || p.finalized) = true := by
  cases h with
  | used r hu => rw [hu.defers, Bool.true_or]
  | ended => rfl

/-- Once the start of a use is gone, it stays gone, if at most one turn takes a deferred node, and no finalizer settles before. -/
theorem Lease.spent_once {b : Lease} {base : List Frame} {h : History} (i : Nat)
    (before : ((h.take i).all fun y => !(y.1.defers || y.1.finalized)) = true)
    (after : ((h.drop (i + 1)).all fun y => !y.1.defers) = true) :
    h.Pairwise fun y z => b.Spent base y.1 y.2 → ∀ r, ¬ z.1.Uses (b.lent r) z.2 := by
  have hspent : ∀ y ∈ h.take i, ¬ b.Spent base y.1 y.2 := fun y hy hs => by
    have hy := List.all_eq_true.mp before y hy
    rw [hs.defers_or_finalized] at hy
    nomatch hy
  have huses : ∀ y ∈ h.drop (i + 1), ∀ r, ¬ y.1.Uses (b.lent r) y.2 := fun y hy r hu => by
    have hy := List.all_eq_true.mp after y hy
    rw [hu.defers] at hy
    nomatch hy
  rw [← List.take_append_drop i h, List.pairwise_append]
  refine ⟨List.pairwise_of_forall_mem_list fun y hy _ _ hs => absurd hs (hspent y hy), ?_,
    fun y hy _ _ hs => absurd hs (hspent y hy)⟩
  rw [← List.tail_drop] at huses
  cases hdrop : h.drop i with
  | nil => exact .nil
  | cons y t =>
    rw [hdrop] at huses
    exact .cons (fun z hz _ => huses z hz) (List.pairwise_of_forall_mem_list fun _ _ z hz _ => huses z hz)

/-- A resource whose release logs whether it has been told of a failure. -/
def toldLease : Lease where
  cell := 0
  resource := .value (.int 7)
  use p := return .succeed p
  release _ used := do
    Action.perform (.log (.bool used.isFailure))
    return .succeed .unit

/-- The same resource, with a use that trips the token of the run and succeeds nevertheless. -/
def cutLease : Lease :=
  { toldLease with
    use := fun p => do
      Action.perform (.interrupt 0)
      return .succeed p }

/-- A run of a bracket whose acquisition does nothing but succeed with the resource. -/
def Lease.plainRun (b : Lease) : History × Process × World :=
  Process.alone 60 (.start (b.bracketed (.succeed b.resource)) (.plain .null) 0 100)
    { (World.newToken default).2 with cells := #[none] }

/-- The run in which the release is told the exit of the use. -/
def toldRun : History × Process × World := toldLease.plainRun

/-- The run in which it is told of interruption. -/
def cutRun : History × Process × World := cutLease.plainRun

/-- Nobody but the bracket reaches its cell in the one run. -/
theorem toldRun_owned : toldLease.Owned [] Eq toldRun.1 where
  surroundings w v hm := by rw [hm]
  use _ _ _ _ _ _ := rfl
  release _ _ _ _ _ _ _ := rfl
  turns := by
    iterate 9 refine List.forall_mem_cons.mpr ⟨fun _ => rfl, ?_⟩
    refine List.forall_mem_cons.mpr ⟨fun hn => absurd (.start _ rfl) hn, ?_⟩
    iterate 5 refine List.forall_mem_cons.mpr ⟨fun _ => rfl, ?_⟩
    refine List.forall_mem_cons.mpr ⟨fun hn => absurd (.resume _ rfl) hn, ?_⟩
    iterate 22 refine List.forall_mem_cons.mpr ⟨fun _ => rfl, ?_⟩
    exact List.forall_mem_nil _
  spent := Lease.spent_once 9 rfl rfl
  guarded := by
    iterate 32 refine List.forall_mem_cons.mpr ⟨trivial, ?_⟩
    refine List.forall_mem_cons.mpr ⟨fun _ => rfl, List.forall_mem_cons.mpr ⟨trivial, ?_⟩⟩
    refine List.forall_mem_cons.mpr ⟨fun _ => rfl, ?_⟩
    iterate 3 refine List.forall_mem_cons.mpr ⟨trivial, ?_⟩
    exact List.forall_mem_nil _

/-- And in the other one. -/
theorem cutRun_owned : cutLease.Owned [] Eq cutRun.1 where
  surroundings w v hm := by rw [hm]
  use := by
    iterate 24 refine List.forall_mem_cons.mpr ⟨fun _ _ v hv => by obtain ⟨_, _, _, rfl⟩ := hv.exists_eq; rfl, ?_⟩
    exact List.forall_mem_nil _
  release _ _ _ _ _ _ _ := rfl
  turns := by
    iterate 9 refine List.forall_mem_cons.mpr ⟨fun _ => rfl, ?_⟩
    refine List.forall_mem_cons.mpr ⟨fun hn => absurd (.start _ rfl) hn, ?_⟩
    iterate 6 refine List.forall_mem_cons.mpr ⟨fun _ => rfl, ?_⟩
    refine List.forall_mem_cons.mpr ⟨fun hn => absurd (.guard _ _ rfl) hn, ?_⟩
    iterate 7 refine List.forall_mem_cons.mpr ⟨fun _ => rfl, ?_⟩
    exact List.forall_mem_nil _
  spent := Lease.spent_once 9 rfl rfl
  guarded := by
    iterate 16 refine List.forall_mem_cons.mpr ⟨trivial, ?_⟩
    iterate 3 refine List.forall_mem_cons.mpr ⟨fun _ => rfl, List.forall_mem_cons.mpr ⟨trivial, ?_⟩⟩
    iterate 2 refine List.forall_mem_cons.mpr ⟨trivial, ?_⟩
    exact List.forall_mem_nil _

/-- A bracket that is not interrupted releases its resource with the exit of the use, and one that is cut short during the use
releases it with interruption. -/
theorem bracket_releases_once_told :
    (∃ (h : History) (v : World),
      Process.Run Eq (.start (toldLease.bracketed (.succeed toldLease.resource)) (.plain .null) 0 100)
          { (World.newToken default).2 with cells := #[none] } h (.settled (.success toldLease.resource)) v ∧
        v.log = #[.bool false] ∧ (∃ y ∈ h, y.1.ReleasesWith toldLease (.success toldLease.resource) y.2) ∧
          toldLease.Course [] h (.settled (.success toldLease.resource))) ∧
    ∃ (h : History) (v : World),
      Process.Run Eq (.start (cutLease.bracketed (.succeed cutLease.resource)) (.plain .null) 0 100)
          { (World.newToken default).2 with cells := #[none] } h (.settled .interrupted) v ∧
        v.log = #[.bool true] ∧ (∃ y ∈ h, y.1.ReleasesWith cutLease .interrupted y.2) ∧
          cutLease.Course [] h (.settled .interrupted) := by
  have told : Process.Run Eq (.start (toldLease.bracketed (.succeed toldLease.resource)) (.plain .null) 0 100)
      { (World.newToken default).2 with cells := #[none] } toldRun.1 (.settled (.success toldLease.resource)) toldRun.2.2 :=
    Process.alone_run 60 _ _
  have cut : Process.Run Eq (.start (cutLease.bracketed (.succeed cutLease.resource)) (.plain .null) 0 100)
      { (World.newToken default).2 with cells := #[none] } cutRun.1 (.settled .interrupted) cutRun.2.2 :=
    Process.alone_run 60 _ _
  have hn := fun b : Lease => Lease.bracketExit_run (b := { b with cell := 0 }) (w := (World.newToken default).2) rfl
  refine ⟨⟨_, _, told, rfl, ⟨_, List.mem_of_getElem? (i := 15) rfl, ?_⟩,
      bracket_releases_once (hn toldLease (.succeed toldLease.resource)) rfl told toldRun_owned⟩,
    _, _, cut, rfl, ⟨_, List.mem_of_getElem? (i := 16) rfl, ?_⟩,
    bracket_releases_once (hn cutLease (.succeed cutLease.resource)) rfl cut cutRun_owned⟩
  · exact Process.AtRelease.releasesWith (f := Node.concluding _) ⟨rfl, rfl, rfl⟩ rfl
  · exact Process.AtRelease.releasesWith (f := Node.asUnit) ⟨rfl, rfl, rfl, rfl⟩ rfl

end Interruptible
