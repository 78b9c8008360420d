import Interruptible.Proofs.Machine.Observations
import Interruptible.Proofs.World.Apart

/-!
# Finalizers are isolated from the surrounding interruption

A finalizer runs under a token of its own. Two runs of it that start in the same state are followed side by side
(`Sides.Course`): both take a turn, others do the same to the worlds of both, or something befalls one of them only. Something
may go on in its surroundings (`World.Abroad`), where tokens trip at any moment, and as the task may be woken by that, it may be
polled in vain (`Process.Idles`). The surroundings are a region that has nothing to do with what the finalizer has names for,
before and with all that is made in the meantime (`Sides.Level`). Then the two runs are not told apart by their exits, by the
callbacks that are called, by what the host futures come to or by what is logged, and whatever the finalizer is made of, it
leaves the tokens of its surroundings alone (`finalizer_isolated`). Groups, finalizers of its own and brackets in it
(`Node.bracketExit_matches`) are no exception.

It is not enough that the callbacks of the finalizer leave these tokens alone: a listener of such a token may write what the
finalizer reads (`finalizer_overhears`).
-/

namespace Interruptible

/-! ## Two runs side by side -/

/-- Something goes on in a region that has nothing to do with what has the names `V`, and nowhere else; what is made there
belongs to the region. -/
inductive World.Abroad (V : Region) (D : Region) (w : World) : Region → World → Prop where
  /-- A token trips, with all that follows from it. -/
  | tripped {t : TokenId} (ht : D.ids .token t) : Abroad V D w (D.grown w (w.interrupt t)) (w.interrupt t)
  /-- Something else happens, and the region still has nothing to do with the rest. -/
  | changed {D' : Region} {v : World} (hs : w.Spares D v) (hD : ∀ k i, D.ids k i → D'.ids k i) (hv : v.Beyond V D') :
    Abroad V D w D' v

/-- A process is polled in vain: it takes some turns in which it calls nothing and nothing comes of what it awaits, and then it
is where it was, in a world in which nothing has changed that code could see. -/
structure Process.Idles (p : Process) (w : World) (h : History) (v : World) : Prop where
  run : Process.Run (fun _ _ => False) p w h p v
  calls : h.calls = []
  futures : h.futures = []
  logged : h.logged = []
  undisturbed : w.Undisturbed v

/-- No turn changes what stands on a token. -/
def History.Spares (u : TokenId) (h : History) : Prop :=
  ∀ x ∈ h, (x.1.turn x.2).world.tokens[u]? = x.2.tokens[u]?

/-- One of two runs of a process, in its world and with the region of its surroundings. -/
structure Side where
  process : Process
  world : World
  surroundings : Region

/-- A turn of the process. -/
def Side.turn (s : Side) : Side :=
  { s with process := (s.process.turn s.world).process, world := (s.process.turn s.world).world }

/-- Two runs, with the counterparts that their names have on the other side. -/
structure Sides where
  counterparts : Counterparts
  left : Side
  right : Side

namespace Sides

/-- Both runs take a turn. -/
def turn (s : Sides) : Sides where
  counterparts := s.counterparts.grown s.left.world s.right.world s.left.turn.world
  left := s.left.turn
  right := s.right.turn

/-- Both runs take some turns. -/
def turns : Nat → Sides → Sides
  | 0, s => s
  | n + 1, s => turns n s.turn

/-- Others have changed both worlds. -/
def moved (s : Sides) (v v' : World) : Sides where
  counterparts := s.counterparts.grown s.left.world s.right.world v
  left := { s.left with world := v }
  right := { s.right with world := v' }

/-- Something has gone on in the surroundings of the first run. -/
def leftAside (s : Sides) (D : Region) (v : World) : Sides :=
  { s with left := { s.left with world := v, surroundings := D } }

/-- Something has gone on in the surroundings of the second run. -/
def rightAside (s : Sides) (D : Region) (v : World) : Sides :=
  { s with right := { s.right with world := v, surroundings := D } }

/-- A finalizer starts in a world, with a token of its own, an environment and an interval, as it does when its frame is popped
(`Interpreter.pop`): twice in the same state, where it has the names `V`, and its surroundings are the region `D`. -/
def started (V D : Region) (w : World) (n : Node) (env : Environment) (interval : Nat) : Sides :=
  let (token, v) := w.newToken
  let side : Side := { process := .start n env token interval, world := v, surroundings := D }
  { counterparts := (V.grown w v).diagonal, left := side, right := side }

/-- Two runs go on: both take their turns, others do the same in both worlds as far as the runs can tell, and in the
surroundings of each run things go on by themselves, on account of which it may be polled in vain. The turns of both runs are
noted. -/
inductive Course : Sides → History → History → Sides → Prop where
  | done (s : Sides) : Course s [] [] s
  | turn {s t : Sides} {h h' : History} (course : Course s.turn h h' t) :
    Course s ((s.left.process, s.left.world) :: h) ((s.right.process, s.right.world) :: h') t
  | both {s t : Sides} {h h' : History} {v v' : World} (hs : World.InStep s.counterparts s.left.world s.right.world v v')
      (course : Course (s.moved v v') h h' t) : Course s h h' t
  | left {s t : Sides} {h h' : History} {D : Region} {v : World}
      (hs : World.Abroad s.counterparts.left s.left.surroundings s.left.world D v)
      (course : Course (s.leftAside D v) h h' t) : Course s h h' t
  | right {s t : Sides} {h h' : History} {D : Region} {v : World}
      (hs : World.Abroad s.counterparts.right s.right.surroundings s.right.world D v)
      (course : Course (s.rightAside D v) h h' t) : Course s h h' t
  | leftIdle {s t : Sides} {i h h' : History} {v : World} (hi : s.left.process.Idles s.left.world i v)
      (course : Course (s.leftAside s.left.surroundings v) h h' t) : Course s (i ++ h) h' t
  | rightIdle {s t : Sides} {i h h' : History} {v : World} (hi : s.right.process.Idles s.right.world i v)
      (course : Course (s.rightAside s.right.surroundings v) h h' t) : Course s h (i ++ h') t

/-- The two runs cannot be told apart, and neither has anything to do with its surroundings. -/
structure Level (s : Sides) : Prop where
  process : s.left.process.Matches s.counterparts s.right.process
  world : s.left.world.Matches s.counterparts s.right.world
  left : s.left.world.Beyond s.counterparts.left s.left.surroundings
  right : s.right.world.Beyond s.counterparts.right s.right.surroundings

end Sides

/-! ## What goes on aside -/

namespace World.Abroad

variable {V D D' : Region} {w v : World}

/-- Nothing has changed outside of the region, and it has nothing to do with the rest. -/
theorem beyond (h : World.Abroad V D w D' v) (hw : w.Beyond V D) (hV : ∀ k i, V.ids k i → i < w.count k) :
    w.Spares D v ∧ v.Beyond V D' := by
  cases h with
  | tripped ht => exact hw.tripped hV ht
  | changed hs _ hv => exact ⟨hs, hv⟩

/-- A region that something goes on in keeps its names. -/
theorem grows (h : World.Abroad V D w D' v) {k : Kind} {i : Nat} (hi : D.ids k i) : D'.ids k i := by
  cases h with
  | tripped ht => exact .inl hi
  | changed _ hD _ => exact hD k i hi

end World.Abroad

/-! ## The runs stay level -/

namespace Sides

variable {s t : Sides} {h h' : History}

/-- Both processes take their turns in step. -/
theorem Level.paired (hs : s.Level) :
    Turn.Paired s.counterparts s.left.world s.right.world (s.left.process.turn s.left.world)
      (s.right.process.turn s.right.world) := hs.process.turn hs.world

/-- Two runs that cannot be told apart are so after a turn of both. -/
theorem Level.turn (hs : s.Level) : s.turn.Level where
  process := hs.paired.process
  world := hs.paired.step.same
  left := hs.left.stepped hs.paired.step
  right := hs.right.stepped' hs.paired.step

/-- Two runs that cannot be told apart are so after others have done the same in both worlds. -/
theorem Level.moved (hs : s.Level) {v v' : World} (h : World.InStep s.counterparts s.left.world s.right.world v v') :
    (s.moved v v').Level where
  process := hs.process.mono (s.counterparts.sub_grown _ _ _)
  world := h.same
  left := hs.left.stepped h
  right := hs.right.stepped' h

/-- Whatever goes on in the surroundings of the first run, the two cannot be told apart. -/
theorem Level.leftAside (hs : s.Level) {D : Region} {v : World}
    (h : World.Abroad s.counterparts.left s.left.surroundings s.left.world D v) : (s.leftAside D v).Level := by
  obtain ⟨hspares, hbeyond⟩ := h.beyond hs.left fun k i hi => hs.world.lt_left hi
  exact ⟨hs.process, hs.world.spared hs.left.apart hspares, hbeyond, hs.right⟩

/-- Whatever goes on in the surroundings of the second run, the two cannot be told apart. -/
theorem Level.rightAside (hs : s.Level) {D : Region} {v : World}
    (h : World.Abroad s.counterparts.right s.right.surroundings s.right.world D v) : (s.rightAside D v).Level := by
  obtain ⟨hspares, hbeyond⟩ := h.beyond hs.right fun k i hi => hs.world.lt_right hi
  exact ⟨hs.process, hs.world.spared' hs.right.apart hspares, hs.left, hbeyond⟩

/-- The first run may be polled in vain. -/
theorem Level.leftIdle (hs : s.Level) {i : History} {v : World} (h : s.left.process.Idles s.left.world i v) :
    (s.leftAside s.left.surroundings v).Level :=
  ⟨hs.process, hs.world.undisturbed h.undisturbed, hs.left.undisturbed h.undisturbed, hs.right⟩

/-- The second run may be polled in vain. -/
theorem Level.rightIdle (hs : s.Level) {i : History} {v : World} (h : s.right.process.Idles s.right.world i v) :
    (s.rightAside s.right.surroundings v).Level :=
  ⟨hs.process, hs.world.undisturbed' h.undisturbed, hs.left, hs.right.undisturbed h.undisturbed⟩

/-! ## The surroundings are left alone -/

/-- A turn of the first run changes no token of its surroundings. -/
theorem Level.spares_left (hs : s.Level) {u : TokenId} (hu : s.left.surroundings.ids .token u) :
    s.left.turn.world.tokens[u]? = s.left.world.tokens[u]? :=
  hs.paired.step.spares.entries .token u (hs.left.closed.lt hu) fun hV => hs.left.apart.ids .token u hV hu

/-- A turn of the second run changes no token of its surroundings. -/
theorem Level.spares_right (hs : s.Level) {u : TokenId} (hu : s.right.surroundings.ids .token u) :
    s.right.turn.world.tokens[u]? = s.right.world.tokens[u]? :=
  hs.paired.step.spares'.entries .token u (hs.right.closed.lt hu) fun hV => hs.right.apart.ids .token u hV hu

/-- What one of the processes does by itself, it would do beside the other one as well. -/
theorem Level.alone_left (hs : s.Level) {u : TokenId} (hu : s.left.surroundings.ids .token u) {p q : Process} {w v : World}
    {i : History} (run : Process.Run (fun _ _ => False) p w i q v) (hp : p = s.left.process) (hw : w = s.left.world) :
    i.Spares u := by
  induction run generalizing s with
  | done => exact fun _ hx => nomatch hx
  | turn _ _ ih =>
    subst hp hw
    exact List.forall_mem_cons.mpr ⟨hs.spares_left hu, ih hs.turn hu rfl rfl⟩
  | moved hm => exact hm.elim

/-- As long as the second run takes turns alone, none of them changes a token of its surroundings. -/
theorem Level.alone_right (hs : s.Level) {u : TokenId} (hu : s.right.surroundings.ids .token u) {p q : Process} {w v : World}
    {i : History} (run : Process.Run (fun _ _ => False) p w i q v) (hp : p = s.right.process) (hw : w = s.right.world) :
    i.Spares u := by
  induction run generalizing s with
  | done => exact fun _ hx => nomatch hx
  | turn _ _ ih =>
    subst hp hw
    exact List.forall_mem_cons.mpr ⟨hs.spares_right hu, ih hs.turn hu rfl rfl⟩
  | moved hm => exact hm.elim

/-! ## What can be observed of the runs -/

namespace Course

/-- Turns of both runs are part of their course. -/
theorem turns (n : Nat) (course : Course (s.turns n) h h' t) : ∃ g g', Course s g g' t := by
  induction n generalizing s with
  | zero => exact ⟨h, h', course⟩
  | succ n ih =>
    obtain ⟨g, g', hg⟩ := ih course
    exact ⟨_, _, .turn hg⟩

/-- Two runs that cannot be told apart are so throughout their course. The induction is on the course. -/
theorem level (course : Course s h h' t) (hs : s.Level) : t.Level := by
  induction course with
  | done => exact hs
  | turn _ ih => exact ih hs.turn
  | both hm _ ih => exact ih (hs.moved hm)
  | left ha _ ih => exact ih (hs.leftAside ha)
  | right ha _ ih => exact ih (hs.rightAside ha)
  | leftIdle hi _ ih => exact ih (hs.leftIdle hi)
  | rightIdle hi _ ih => exact ih (hs.rightIdle hi)

/-- Counterparts stay counterparts. -/
theorem sub (course : Course s h h' t) : s.counterparts.Sub t.counterparts := by
  induction course with
  | done => exact .refl _
  | turn _ ih => exact (Counterparts.sub_grown _ _ _ _).trans ih
  | both _ _ ih => exact (Counterparts.sub_grown _ _ _ _).trans ih
  | left _ _ ih | right _ _ ih | leftIdle _ _ ih | rightIdle _ _ ih => exact ih

/-- The same callbacks are called, up to names. -/
theorem calls (course : Course s h h' t) (hs : s.Level) : List.Forall₂ (Call.Matches t.counterparts) h.calls h'.calls := by
  induction course with
  | done => exact .nil
  | turn course ih =>
    have hcalls := hs.process.calls hs.world
    exact List.rel_append (hcalls.imp fun _ _ hc => hc.mono course.sub) (ih hs.turn)
  | both hm _ ih => exact ih (hs.moved hm)
  | left ha _ ih => exact ih (hs.leftAside ha)
  | right ha _ ih => exact ih (hs.rightAside ha)
  | leftIdle hi _ ih =>
    have hcalls := hi.calls
    simp only [History.calls, List.flatMap_append] at hcalls ih ⊢
    rw [hcalls]
    exact ih (hs.leftIdle hi)
  | rightIdle hi _ ih =>
    have hcalls := hi.calls
    simp only [History.calls, List.flatMap_append] at hcalls ih ⊢
    rw [hcalls]
    exact ih (hs.rightIdle hi)

/-- What is seen of one turn is seen of both runs, if it is the same in turns that are taken side by side and nothing is seen
of polls in vain. -/
theorem observed {α : Type} {seen : Process × World → List α}
    (hseen : ∀ s : Sides, s.Level → seen (s.left.process, s.left.world) = seen (s.right.process, s.right.world))
    (hvain : ∀ {p : Process} {w v : World} {i : History}, p.Idles w i v → i.flatMap seen = [])
    (course : Course s h h' t) (hs : s.Level) : h.flatMap seen = h'.flatMap seen := by
  induction course with
  | done => rfl
  | turn _ ih => rw [List.flatMap_cons, List.flatMap_cons, hseen _ hs, ih hs.turn]
  | both hm _ ih => exact ih (hs.moved hm)
  | left ha _ ih => exact ih (hs.leftAside ha)
  | right ha _ ih => exact ih (hs.rightAside ha)
  | leftIdle hi _ ih => rw [List.flatMap_append, hvain hi, List.nil_append, ih (hs.leftIdle hi)]
  | rightIdle hi _ ih => rw [List.flatMap_append, hvain hi, List.nil_append, ih (hs.rightIdle hi)]

/-- The host futures come to the same. -/
theorem futures (course : Course s h h' t) (hs : s.Level) : h.futures = h'.futures :=
  course.observed (fun _ hs => hs.process.futures hs.world) (fun hi => hi.futures) hs

/-- The same is logged. -/
theorem logged (course : Course s h h' t) (hs : s.Level) : h.logged = h'.logged :=
  course.observed (fun _ hs => hs.paired.step.logged_eq) (fun hi => hi.logged) hs

/-- The tokens of the surroundings are left alone on both sides. -/
theorem spares (course : Course s h h' t) (hs : s.Level) {u : TokenId} (hu : s.left.surroundings.ids .token u)
    (hu' : s.right.surroundings.ids .token u) : h.Spares u ∧ h'.Spares u := by
  induction course with
  | done => exact ⟨List.forall_mem_nil _, List.forall_mem_nil _⟩
  | turn _ ih =>
    obtain ⟨hleft, hright⟩ := ih hs.turn hu hu'
    exact ⟨List.forall_mem_cons.mpr ⟨hs.spares_left hu, hleft⟩, List.forall_mem_cons.mpr ⟨hs.spares_right hu', hright⟩⟩
  | both hm _ ih => exact ih (hs.moved hm) hu hu'
  | left ha _ ih => exact ih (hs.leftAside ha) (ha.grows hu) hu'
  | right ha _ ih => exact ih (hs.rightAside ha) hu (ha.grows hu')
  | leftIdle hi _ ih =>
    obtain ⟨hleft, hright⟩ := ih (hs.leftIdle hi) hu hu'
    exact ⟨List.forall_mem_append.mpr ⟨hs.alone_left hu hi.run rfl rfl, hleft⟩, hright⟩
  | rightIdle hi _ ih =>
    obtain ⟨hleft, hright⟩ := ih (hs.rightIdle hi) hu hu'
    exact ⟨hleft, List.forall_mem_append.mpr ⟨hs.alone_right hu' hi.run rfl rfl, hright⟩⟩

end Course

/-- A finalizer that matches itself starts level. -/
theorem started_level {V D : Region} {n : Node} {w : World} (hn : n.Matches V.diagonal n) (hV : w.Closed V)
    (hD : w.Beyond V D) (env : Environment) (interval : Nat) : (started V D w n env interval).Level := by
  have hnew := World.newToken_paired hV
  have hκ := V.diagonal.sub_grown w w w.newToken.2
  have hbeyond : w.newToken.2.Beyond (V.grown w w.newToken.2) D := by
    have hstepped := World.Beyond.stepped (κ := V.diagonal) (by rwa [Region.left_diagonal]) hnew.step
    rwa [Region.diagonal_grown, Region.left_diagonal] at hstepped
  have htoken := hnew.answer
  have hsame := hnew.step.same
  have hnode := hn.mono hκ
  rw [Region.diagonal_grown] at htoken hsame hnode
  exact ⟨.next ⟨.nil, rfl, htoken, rfl, rfl, rfl⟩ hnode, hsame, by rwa [started, Region.left_diagonal],
    by rwa [started, Region.right_diagonal]⟩

end Sides

/-- Two runs of a finalizer that start in the same state, and that others and the host treat in the same way, have the same
exit, if any, when they have gone equally far; they have called the same callbacks up to names, with the same arguments, their
host futures have come to the same, and the same has been logged. That is so whatever trips in the surroundings of each of
them, if these have nothing to do with what the finalizer has names for; and neither run changes a token of its
surroundings. -/
theorem finalizer_isolated {V D : Region} {n : Node} {w : World} (hn : n.Matches V.diagonal n) (hV : w.Closed V)
    (hD : w.Beyond V D) (env : Environment) (interval : Nat) {h h' : History} {t : Sides}
    (course : Sides.Course (.started V D w n env interval) h h' t) :
    t.left.process.exit? = t.right.process.exit? ∧ List.Forall₂ (Call.Matches t.counterparts) h.calls h'.calls ∧
      h.futures = h'.futures ∧ h.logged = h'.logged ∧ ∀ u, D.ids .token u → h.Spares u ∧ h'.Spares u := by
  have hlevel := Sides.started_level hn hV hD env interval
  exact ⟨(course.level hlevel).process.exit?_eq, course.calls hlevel, course.futures hlevel, course.logged hlevel,
    fun u hu => course.spares hlevel hu hu⟩

/-! ## A listener that counts -/

/-- A world in which a listener of the only token counts. -/
def countingWorld : World :=
  ((World.newToken default).2.subscribe 0 (.call (.ask (.bump "n") fun _ => .done))).2

/-- That token, with the counter. -/
def countingRegion : Region where
  ids k i := k = .token ∧ i = 0
  reads s := s = .counter "n"
  writes s := s = .counter "n"

/-- A gate, and no names. -/
def gateRegion : Region where
  ids _ _ := False
  reads s := s = .gate "open"
  writes s := s = .gate "open"

/-- In the world of the listener that counts, nothing in the region of the gate names anything outside of it. -/
theorem gateRegion_closed : countingWorld.Closed gateRegion where
  entries _ _ _ hab := hab.1.elim
  slots s hs := by
    obtain rfl : s = .gate "open" := hs
    exact Eq.refl _
  right_unique _ _ _ _ hab _ := hab.1.elim
  left_unique _ _ _ _ hab _ := hab.1.elim

/-- The token and its counter have nothing to do with the gate. -/
theorem countingRegion_beyond : countingWorld.Beyond gateRegion countingRegion where
  closed := by
    have hlistener : (Listener.ask (.bump "n") fun _ => .done).Matches countingRegion.diagonal (.ask (.bump "n") fun _ => .done) :=
      .ask (.bump rfl rfl) fun κ _ _ _ _ => .done κ
    refine ⟨fun k a b hab => ?_, fun s hs => ?_, fun k a b b' hab hab' => hab.2.symm.trans hab'.2,
      fun k a a' b hab hab' => hab.2.trans hab'.2.symm⟩
    · obtain ⟨⟨rfl, rfl⟩, rfl⟩ := hab
      exact ⟨_, _, rfl, rfl, rfl, rfl, .cons ⟨rfl, .call hlistener⟩ .nil⟩
    · obtain rfl : s = .counter "n" := hs
      exact Eq.refl _
  apart := by
    refine ⟨fun _ _ h => h.elim, fun s hD hV => ?_, fun s hV _ => ?_⟩
    · obtain rfl : s = .counter "n" := hD
      nomatch (show Slot.counter "n" = .gate "open" from hV)
    · obtain rfl : s = .gate "open" := hV
      trivial

/-- A finalizer that waits for the gate and then runs a group that interrupts itself, with a finalizer of its own. -/
def gatedGroup : Node :=
  .chain (.liftPromise (fun _ => return .wait (.gate "open") (.settle (.ok (.value .null)))) fun x => return .fail x) fun _ =>
    return .ensuring (.all [.interrupt, .succeed (.value .null)])
      (.succeedLazy (.ask (.log (.str "closed")) fun _ => .pure (.ok (.value .null))))

/-- The finalizer uses the gate and nothing else of its surroundings. -/
theorem gatedGroup_matches : gatedGroup.Matches gateRegion.diagonal gatedGroup := by
  have hgroup : List.Forall₂ (Node.Matches gateRegion.diagonal) [.interrupt, .succeed (.value .null)]
      [.interrupt, .succeed (.value .null)] := .cons (.interrupt _) (.cons (.succeed _ _) .nil)
  refine .chain (.liftPromise (fun κ _ _ hκ _ => .pure (.wait (.gate (hκ.reads _ rfl)) (.settle κ _))) fun x => .pure rfl)
    fun _ => .pure (.ensuring (.all_of_forall₂ hgroup) (.succeedLazy (.ask (.log _) fun _ _ _ _ _ => .pure rfl)))

/-- Two runs of it. -/
def gatedSides : Sides := .started gateRegion countingRegion countingWorld gatedGroup (.plain .null) 100

/-- Both have come to wait at the gate, and the token has tripped in the surroundings of the first one. -/
def trippedSides : Sides :=
  let s := gatedSides.turns 5
  s.leftAside (countingRegion.grown s.left.world (s.left.world.interrupt 0)) (s.left.world.interrupt 0)

/-- Thereupon it has been polled in vain. -/
def polledSides : Sides := trippedSides.leftAside trippedSides.left.surroundings trippedSides.left.turn.world

/-- Somebody has opened the gate, and both have settled. -/
def settledSides : Sides :=
  (polledSides.moved (polledSides.left.world.openGate "open") (polledSides.right.world.openGate "open")).turns 30

/-- The first run is polled in vain when the token has tripped: the gate is still closed. -/
theorem trippedSides_idles :
    trippedSides.left.process.Idles trippedSides.left.world [(trippedSides.left.process, trippedSides.left.world)]
      trippedSides.left.turn.world where
  run := .turn rfl (.done _ _)
  calls := rfl
  futures := rfl
  logged := rfl
  undisturbed := ⟨rfl, rfl, rfl, fun s => by cases s <;> rfl⟩

/-- The course of the two runs: the token trips beside the first one, which is polled in vain, and then the gate is opened for
both. -/
theorem gatedSides_course : ∃ h h', gatedSides.Course h h' settledSides := by
  have hstart : gatedSides.Level :=
    Sides.started_level gatedGroup_matches gateRegion_closed countingRegion_beyond (.plain .null) 100
  have htripped : World.Abroad (gatedSides.turns 5).counterparts.left (gatedSides.turns 5).left.surroundings
      (gatedSides.turns 5).left.world trippedSides.left.surroundings trippedSides.left.world := .tripped ⟨rfl, rfl⟩
  have hpolled : polledSides.Level := by
    obtain ⟨_, _, hturns⟩ := Sides.Course.turns 5 (.done (gatedSides.turns 5))
    exact ((hturns.level hstart).leftAside htripped).leftIdle trippedSides_idles
  have hopened : World.InStep polledSides.counterparts polledSides.left.world polledSides.right.world
      (polledSides.left.world.openGate "open") (polledSides.right.world.openGate "open") :=
    .set hpolled.world rfl (.gate _ _) (.gate _ _) rfl
  obtain ⟨_, _, hsettled⟩ := Sides.Course.turns 30 (.done settledSides)
  exact Sides.Course.turns 5 (.left htripped (.leftIdle trippedSides_idles (.both hopened hsettled)))

/-- The two runs of the finalizer come to the same, though the token of the surroundings has tripped beside the first one
only. -/
theorem finalizer_isolated_gatedGroup :
    ∃ h h', gatedSides.Course h h' settledSides ∧
      settledSides.left.world.isInterrupted 0 = true ∧ settledSides.right.world.isInterrupted 0 = false ∧
      settledSides.left.process.exit? = some (.failure .interrupt) ∧
      settledSides.right.process.exit? = some (.failure .interrupt) ∧
      List.Forall₂ (Call.Matches settledSides.counterparts) h.calls h'.calls ∧ h.futures = h'.futures ∧
      h.logged = h'.logged ∧ h.Spares 0 ∧ h'.Spares 0 := by
  obtain ⟨h, h', course⟩ := gatedSides_course
  obtain ⟨hexit, hcalls, hfutures, hlogged, hspares⟩ := finalizer_isolated gatedGroup_matches gateRegion_closed
    countingRegion_beyond (.plain .null) 100 course
  have hleft : settledSides.left.process.exit? = some (.failure .interrupt) := rfl
  exact ⟨h, h', course, rfl, rfl, hleft, hexit ▸ hleft, hcalls, hfutures, hlogged, hspares 0 ⟨rfl, rfl⟩⟩

/-- A finalizer that gives way once, and then succeeds with what has been counted. -/
def overhearing : Node :=
  .chain (.liftPromise (fun _ => return .yield 1 (.settle (.ok (.value .null)))) fun x => return .fail x) fun _ =>
    return .succeedLazy (.ask (.counter "n") fun n => .pure (.ok (.value (.int n))))

/-- No names, and the counter to be read. -/
def overhearingRegion : Region where
  ids _ _ := False
  reads s := s = .counter "n"
  writes _ := False

/-- The exit of this finalizer, if something happens in its surroundings while it gives way. -/
def overhearingExit (meanwhile : World → World) : Option (Exit Value Payload) :=
  let (token, w) := countingWorld.newToken
  let (_, p, v) := Process.alone 5 (.start overhearing (.plain .null) token 100) w
  (p.alone 20 (meanwhile v)).2.1.exit?

/-- The finalizer has no name of the token, and neither has what it can read, but it hears of it when the token trips. -/
theorem finalizer_overhears :
    overhearing.Matches overhearingRegion.diagonal overhearing ∧ countingWorld.Closed overhearingRegion ∧
      (∀ k i, ¬ overhearingRegion.ids k i) ∧ overhearingExit id = some (.success (.value (.int 0))) ∧
      overhearingExit (World.interrupt 0) = some (.success (.value (.int 1))) := by
  refine ⟨?_, ?_, fun _ _ h => h, rfl, rfl⟩
  · refine .chain (.liftPromise (fun κ _ _ _ _ => .pure (.yield 1 (.settle κ _))) fun x => .pure rfl) fun _ => .pure ?_
    exact .succeedLazy (.ask (.counter rfl) fun _ _ _ _ hr => .pure (by rw [show _ = _ from hr]))
  · refine ⟨fun _ _ _ hab => hab.1.elim, fun s hs => ?_, fun _ _ _ _ hab _ => hab.1.elim, fun _ _ _ _ hab _ => hab.1.elim⟩
    obtain rfl : s = .counter "n" := hs
    exact Eq.refl _

end Interruptible
