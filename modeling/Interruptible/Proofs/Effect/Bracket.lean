import Interruptible.Proofs.Effect.Lease

/-!
# When a bracket releases its resource

A bracket keeps its resource in a cell, but the resource gets there only when its use starts. Between the continuation of the
acquisition, which is handed the resource, and the start of the use the interpreter takes three nodes, and before each of them
it looks at its token. If it finds the token tripped there, the cell is still empty, the guard of the bracket finds nothing to
release, and the resource is lost (`bracket_leaks`). In all other runs the resource is released by the time the interpreter
settles (`bracket_releases_iff`).
-/

namespace Interruptible

/-- A turn that leaves the cell of a resource alone. -/
def Lease.Spared (b : Lease) (y : Process × World) : Prop :=
  (y.1.turn y.2).world.cells[b.cell]? = y.2.cells[b.cell]?

/-- The cell is made for the bracket and known to nobody else, so that in the course of some turns nobody but its use and its
release reaches it; and nobody reaches the token that is made for its guard. -/
structure Lease.Private (b : Lease) (R : World → World → Prop) (h : History) : Prop where
  surroundings : ∀ w v, R w v → v.cells[b.cell]? = w.cells[b.cell]?
  uses : ∀ y ∈ h, y.1.Uses b y.2 → ∀ v, y.2.Alike v →
    ((b.use b.resource).run (b.filled v)).2.cells[b.cell]? = (b.filled v).cells[b.cell]?
  turns : ∀ y ∈ h, ¬ y.1.Uses b y.2 → ¬ y.1.Releases b y.2 → b.Spared y
  guarded : ∀ y ∈ h, y.1.Isolated b.guard y.2

theorem Lease.Private.drop {b : Lease} {R : World → World → Prop} {h : History} (hpriv : b.Private R h) (k : Nat) :
    b.Private R (h.drop k) where
  surroundings := hpriv.surroundings
  uses z hz := hpriv.uses z (List.mem_of_mem_drop hz)
  turns z hz := hpriv.turns z (List.mem_of_mem_drop hz)
  guarded z hz := hpriv.guarded z (List.mem_of_mem_drop hz)

namespace Lease

variable {b : Lease} {R : World → World → Prop} {p q : Process} {w v : World} {h : History} {base : List Frame}

/-! ## From the start of the use to the release -/

/-- The states of an interpreter whose resource lies in its cell and will be released: the resource is in use, or the use has
ended and its continuation comes next, or the guard does. -/
inductive Pending (b : Lease) (base : List Frame) : Process → Prop where
  | inUse {p : Process} (above : List Frame) (hf : p.frames = above ++ capture :: b.resume :: .finalize b.guard :: base) :
    Pending b base p
  | captured {m : Interpreter} (e : Exit Value Payload) (hf : m.frames.frames = b.resume :: .finalize b.guard :: base) :
    Pending b base (.next m (.succeed (.exit e)))
  | counted {m : Interpreter} (e : Exit Value Payload) (hf : m.frames.frames = b.resume :: .finalize b.guard :: base) :
    Pending b base (.counted m (.succeed (.exit e)))
  | resuming {m : Interpreter} (p : Payload) (hf : m.frames.frames = b.resume :: .finalize b.guard :: base) :
    Pending b base (.popping m (.value p))
  | skipping {m : Interpreter} (hf : m.frames.frames = b.resume :: .finalize b.guard :: base) :
    Pending b base (.popping m .interruption)
  | unguarded {m : Interpreter} (hf : m.frames.frames = .finalize b.guard :: base) : Pending b base (.popping m .interruption)
  | guardNext (m m' : Interpreter) : Pending b base (.finalizing m .interruption (.next m' b.guard))
  | guardCounted (m m' : Interpreter) : Pending b base (.finalizing m .interruption (.counted m' b.guard))

/-- A bracket that has not come to its end has not settled. -/
theorem Pending.unsettled (hp : Pending b base p) : p.exit? = none := by
  cases hp with
  | inUse above hf =>
    refine Process.exit?_eq_none fun e he => ?_
    rw [he] at hf
    cases above <;> nomatch hf
  | _ => rfl

/-- The use goes on, or its end is captured. -/
theorem Pending.turn_inUse (above : List Frame) (hf : p.frames = above ++ capture :: b.resume :: .finalize b.guard :: base) :
    Pending b base (p.turn w).process := by
  have hshift := p.turn_shift w (Pending.unsettled (.inUse above hf))
  generalize hev : p.frameEvents w = events at hshift
  cases hshift with
  | idle _ _ hf' => exact .inUse above (hf'.trans hf)
  | work _ _ _ _ hf' => exact .inUse above (hf'.trans hf)
  | finish _ _ _ hf' => exact .inUse above (hf'.trans hf)
  | push f _ _ hf' => exact .inUse (f :: above) (by rw [hf', hf]; rfl)
  | start n _ _ _ _ _ hf' =>
    rw [hf'] at hf
    cases above with
    | nil => nomatch hf
    | cons f above => exact .inUse above (List.cons.inj hf).2
  | pop f hn _ _ hf' =>
    rw [hf'] at hf
    cases above with
    | cons f above => exact .inUse above (List.cons.inj hf).2
    | nil =>
      obtain ⟨m, o, rfl⟩ := Process.popping_of_popped (p := p) (w := w) (f := f) (by rw [hev]; exact List.mem_cons_self)
      obtain ⟨s', hpop, hs⟩ := FrameStack.pop?_eq_some (hf'.trans hf)
      simp only [Process.turn, Interpreter.pop, hpop, capture]
      cases o with
      | value p => exact .captured (.success p) hs
      | failure c => exact .captured (.failure c) hs
      | interruption => exact .skipping hs

/-- A turn that does not release brings the interpreter closer to one that does. -/
theorem Pending.turn (hp : Pending b base p) (hw : b.Holds w) (hr : ¬ p.Releases b w) (hi : p.Isolated b.guard w) :
    Pending b base (p.turn w).process := by
  cases hp with
  | inUse above hf => exact turn_inUse above hf
  | @captured m e hf =>
    rw [(Process.turn_next m _ w).1]
    exact .counted e hf
  | @counted m e hf =>
    cases ho : w.isInterrupted m.token with
    | true =>
      simp only [Process.turn, ho]
      exact .skipping hf
    | false =>
      rw [Process.turn_counted ho]
      exact .resuming _ hf
  | resuming p hf => exact absurd ⟨_, .continued hf hw p⟩ hr
  | skipping hf =>
    obtain ⟨s', hpop, hs⟩ := FrameStack.pop?_eq_some hf
    simp only [Process.turn, Interpreter.pop, hpop, resume]
    exact .unguarded hs
  | unguarded hf =>
    obtain ⟨s', hs, hpop⟩ := Interpreter.pop_finalize hf .interruption w
    simp only [Process.turn, hpop]
    exact .guardNext _ _
  | guardNext m m' =>
    rw [Process.turn_finalizing _ _ rfl]
    simp only [(Process.turn_next m' _ w).1]
    exact .guardCounted _ _
  | guardCounted m m' => exact absurd ⟨_, .guarded .interruption (hi rfl) hw⟩ hr

/-- The start of the use puts the resource into its cell, and the use leaves it there. -/
theorem Private.holds (hpriv : b.Private R h) (hy : (p, w) ∈ h) (hu : p.Uses b w) (hw : b.Lacks w ∨ b.Holds w) :
    b.Holds (p.turn w).world := by
  have huse := hpriv.uses (p, w) hy hu
  match p, hu with
  | .counted m n, ⟨hn, ho, _⟩ =>
    subst hn
    have hrec := World.Alike.of_record w (.step b.start.kind m.frames.height)
    have hworld : (Process.turn (.counted m b.start) w).world =
        ((b.use b.resource).run (b.filled (w.record (.step b.start.kind m.frames.height)))).2 := by
      rw [Process.turn_counted ho, ← start_run rfl]
      exact Interpreter.goOn_world m _ _
    unfold Holds
    rw [hworld, huse _ hrec]
    exact filled_holds hw

/-- Once the resource lies in its cell it is released before the interpreter settles. -/
theorem Pending.released (run : Process.Run R p w h q v) (hpriv : b.Private R h) (hp : Pending b base p) (hw : b.Holds w)
    (hq : q.exit? ≠ none) : ∃ y ∈ h, y.1.Releases b y.2 := by
  induction run with
  | done => exact absurd hp.unsettled hq
  | @turn p q w v h _ run ih =>
    by_cases hr : p.Releases b w
    · exact ⟨(p, w), List.mem_cons_self, hr⟩
    · have hw' : b.Holds (p.turn w).world := by
        by_cases hu : p.Uses b w
        · exact hpriv.holds List.mem_cons_self hu (Or.inr hw)
        · exact (hpriv.turns (p, w) List.mem_cons_self hu hr).trans hw
      have hp' := hp.turn hw hr (hpriv.guarded (p, w) List.mem_cons_self)
      obtain ⟨y, hy, hry⟩ := ih (hpriv.drop 1) hp' hw' hq
      exact ⟨y, List.mem_cons_of_mem _ hy, hry⟩
  | moved hm _ ih => exact ih hpriv hp ((hpriv.surroundings _ _ hm).trans hw) hq

/-! ## From the hand-over to the start of the use -/

/-- As long as nobody starts the use the cell stays empty, and nobody releases the resource. -/
theorem never_released (run : Process.Run R p w h q v) (hpriv : b.Private R h) (hu : ∀ y ∈ h, ¬ y.1.Uses b y.2)
    (hw : b.Lacks w) : ∀ y ∈ h, ¬ y.1.Releases b y.2 := by
  induction run with
  | done => exact fun y hy => nomatch hy
  | @turn p q w v h _ run ih =>
    have hr : ¬ p.Releases b w := fun ⟨_, hr⟩ => by
      have hh : b.Holds w := hr.holds
      nomatch hw.symm.trans hh
    have hw' : b.Lacks (p.turn w).world :=
      (hpriv.turns (p, w) List.mem_cons_self (hu _ List.mem_cons_self) hr).trans hw
    intro y hy
    rcases List.mem_cons.mp hy with rfl | hy
    · exact hr
    · exact ih (hpriv.drop 1) (fun z hz => hu z (List.mem_cons_of_mem _ hz)) hw' y hy
  | moved hm _ ih => exact ih hpriv hu ((hpriv.surroundings _ _ hm).trans hw)

/-- An interrupted interpreter does not come to the use. -/
theorem not_uses_of_interrupted (hp : p.Interrupted) : ¬ p.Uses b w := by
  intro hu
  match p, hu with
  | .counted m n, _ => exact hp

theorem not_uses_counted {m : Interpreter} {n : Node} (h : n ≠ b.start ∨ w.isInterrupted m.token = true) :
    ¬ (Process.counted m n).Uses b w := by
  rintro ⟨hn, ho, -⟩
  rcases h with h | h
  · exact h hn
  · nomatch h.symm.trans ho

/-- Three nodes are taken from the hand-over to the use. Either nobody disturbs the interpreter there and the resource is about
to be used, or it is never used. -/
theorem hand_over (hpriv : b.Private R h) {m : Interpreter} (hm : m.frames.frames = .finalize b.guard :: base)
    (run : Process.Run R (.next m b.handedOver) w h q v) (hq : q.exit? ≠ none) (hw : b.Lacks w) :
    (∀ y ∈ h.take 6, y.1.Undisturbed y.2) ∧
        (∃ p' w', b.Pending base p' ∧ b.Holds w' ∧ Process.Run R p' w' (h.drop 6) q v) ∨
      (∃ y ∈ h.take 6, ¬ y.1.Undisturbed y.2) ∧ ∀ y ∈ h, ¬ y.1.Uses b y.2 := by
  have hI : ∀ w v, R w v → b.Lacks w → b.Lacks v := fun w v hm hw => (hpriv.surroundings w v hm).trans hw
  have hA : ∀ w v, World.Alike w v → b.Lacks w → b.Lacks v := fun w v hm hw => by
    unfold Lacks
    rw [hm.cells]
    exact hw
  obtain ⟨w₁, w₂, h₁, rfl, ⟨ho₁, hi⟩ | ⟨ho₁, hw₂, run⟩⟩ := run.dispatch hI hA hq hw
  · refine Or.inr ⟨⟨_, List.mem_cons_of_mem _ List.mem_cons_self, fun hu => ?_⟩, ?_⟩
    · exact Bool.false_ne_true (hu.symm.trans ho₁)
    · simp only [List.forall_mem_cons]
      exact ⟨id, not_uses_counted (Or.inl nofun), fun y hy => not_uses_of_interrupted (hi y hy)⟩
  obtain ⟨w₃, w₄, h₂, rfl, ⟨ho₂, hi⟩ | ⟨ho₂, hw₄, run⟩⟩ :=
    run.dispatch (m := m.tick.push b.resume) (n := b.start.result) hI hA hq hw₂
  · refine Or.inr ⟨⟨(.counted (m.tick.push b.resume).tick b.start.result, w₄), ?_, fun hu => ?_⟩, ?_⟩
    · simp
    · exact Bool.false_ne_true (hu.symm.trans ho₂)
    · simp only [List.forall_mem_cons]
      exact ⟨id, not_uses_counted (Or.inl nofun), id, not_uses_counted (Or.inl nofun),
        fun y hy => not_uses_of_interrupted (hi y hy)⟩
  obtain ⟨w₅, w₆, h₃, rfl, ⟨ho₃, hi⟩ | ⟨ho₃, hw₆, run⟩⟩ :=
    run.dispatch (m := (m.tick.push b.resume).tick.push capture) (n := b.start) hI hA hq hw₄
  · refine Or.inr ⟨⟨(.counted ((m.tick.push b.resume).tick.push capture).tick b.start, w₆), ?_, fun hu => ?_⟩, ?_⟩
    · simp
    · exact Bool.false_ne_true (hu.symm.trans ho₃)
    · simp only [List.forall_mem_cons]
      exact ⟨id, not_uses_counted (Or.inl nofun), id, not_uses_counted (Or.inl nofun), id, not_uses_counted (Or.inr ho₃),
        fun y hy => not_uses_of_interrupted (hi y hy)⟩
  · refine Or.inl ⟨?_, _, _, .inUse [] ?_, ?_, run⟩
    · simp only [List.take_succ_cons, List.take_zero, List.forall_mem_cons]
      exact ⟨trivial, ho₁, trivial, ho₂, trivial, ho₃, fun _ hy => nomatch hy⟩
    · show capture :: b.resume :: m.frames.frames = _
      rw [hm]
      rfl
    · have hholds := hpriv.holds (p := .counted ((m.tick.push b.resume).tick.push capture).tick b.start) (w := w₆) (by simp)
        (Process.uses_start ho₃) (Or.inl hw₆)
      rwa [Process.turn_counted (m := ((m.tick.push b.resume).tick.push capture).tick) ho₃] at hholds

end Lease

/-- A resource that has been handed to the continuation of a bracket's acquisition is released by the time the interpreter
settles if and only if the interpreter has not found its token tripped when it looked at it for the first three times. -/
theorem bracket_releases_iff {R : World → World → Prop} {acquire n : Node} {b : Lease} {m m' : Interpreter}
    {w₀ w v w' : World} {h : History} {x : Exit Value Payload} {i : Nat}
    (hn : (Node.bracketExit acquire b.use b.release).run w₀ = (.ok n, w)) (hcell : b.cell = w₀.cells.size)
    (run : Process.Run R (.next m n) w h (.settled x) w') (hi : h[i]? = some (.next m' b.handedOver, v))
    (hm : m'.frames.frames = .finalize b.guard :: m.frames.frames) (hbefore : ∀ y ∈ h.take i, b.Spared y)
    (hpriv : b.Private R (h.drop i)) :
    (∃ y ∈ h.drop i, y.1.Releases b y.2) ↔ ∀ y ∈ (h.drop i).take 6, y.1.Undisturbed y.2 := by
  have hw : b.Lacks w := by
    rw [Lease.bracketExit_run hcell] at hn
    obtain rfl := (Prod.mk.inj hn).2
    unfold Lease.Lacks
    rw [hcell, Array.getElem?_push_size]
  obtain ⟨hv, run⟩ := run.drop (fun w v hm hw => (hpriv.surroundings w v hm).trans hw) hi
    (fun y hy hw => (hbefore y hy).trans hw) hw
  rcases Lease.hand_over hpriv hm run nofun hv with ⟨hu, p, w₆, hp, hw₆, run₆⟩ | ⟨⟨y, hy, hd⟩, huses⟩
  · refine ⟨fun _ => hu, fun _ => ?_⟩
    obtain ⟨y, hy, hr⟩ := hp.released run₆ (hpriv.drop 6) hw₆ nofun
    exact ⟨y, List.mem_of_mem_drop hy, hr⟩
  · refine ⟨fun ⟨z, hz, hr⟩ => ?_, fun hu => absurd (hu y hy) hd⟩
    exact absurd hr (Lease.never_released run hpriv huses hv z hz)

/-- A resource whose use trips the token of the run and whose release is logged. -/
def loggedLease : Lease where
  cell := 0
  resource := .value (.int 7)
  use p := do
    Action.perform (.interrupt 0)
    return .succeed p
  release _ _ := do
    Action.perform (.log (.str "released"))
    return .succeed .unit

/-- What a run of its bracket comes to, for an acquisition. -/
def loggedRun (acquire : Node) : History × Process × World :=
  Process.alone 40 (.start (loggedLease.bracketed acquire) (.plain .null) 0 100)
    { (World.newToken default).2 with cells := #[none] }

/-- An acquisition that does nothing else. -/
def plainAcquisition : Node := .succeed loggedLease.resource

/-- In a run with that acquisition the sixth turn after the hand-over uses the resource, and the guard releases it. -/
theorem loggedRun_private : loggedLease.Private Eq ((loggedRun plainAcquisition).1.drop 4) where
  surroundings w v hm := by rw [hm]
  uses := by
    iterate 20 refine List.forall_mem_cons.mpr ⟨fun _ v hv => by obtain ⟨_, _, _, rfl⟩ := hv.exists_eq; rfl, ?_⟩
    exact List.forall_mem_nil _
  turns := by
    iterate 5 refine List.forall_mem_cons.mpr ⟨fun _ _ => rfl, ?_⟩
    refine List.forall_mem_cons.mpr ⟨fun hu _ => absurd (Process.uses_start rfl) hu, ?_⟩
    iterate 6 refine List.forall_mem_cons.mpr ⟨fun _ _ => rfl, ?_⟩
    refine List.forall_mem_cons.mpr ⟨fun _ hr => absurd ⟨_, .guarded _ rfl rfl⟩ hr, ?_⟩
    iterate 7 refine List.forall_mem_cons.mpr ⟨fun _ _ => rfl, ?_⟩
    exact List.forall_mem_nil _
  guarded := by
    iterate 12 refine List.forall_mem_cons.mpr ⟨trivial, ?_⟩
    iterate 3 refine List.forall_mem_cons.mpr ⟨fun _ => rfl, List.forall_mem_cons.mpr ⟨trivial, ?_⟩⟩
    iterate 2 refine List.forall_mem_cons.mpr ⟨trivial, ?_⟩
    exact List.forall_mem_nil _

/-- The acquisition is not interrupted, and the resource is released once it has been used. -/
theorem bracket_releases_iff_logged :
    ∃ y ∈ (loggedRun plainAcquisition).1.drop 4, y.1.Releases loggedLease y.2 := by
  have hn := Lease.bracketExit_run (b := loggedLease) (w := (World.newToken default).2) rfl plainAcquisition
  have run : Process.Run Eq (.start (loggedLease.bracketed plainAcquisition) (.plain .null) 0 100)
      { (World.newToken default).2 with cells := #[none] } (loggedRun plainAcquisition).1 (.settled .interrupted)
      (loggedRun plainAcquisition).2.2 := Process.alone_run 40 _ _
  have hbefore : ∀ y ∈ (loggedRun plainAcquisition).1.take 4, loggedLease.Spared y := by
    iterate 4 refine List.forall_mem_cons.mpr ⟨rfl, ?_⟩
    exact List.forall_mem_nil _
  have hu : ∀ y ∈ ((loggedRun plainAcquisition).1.drop 4).take 6, y.1.Undisturbed y.2 := by
    iterate 3 refine List.forall_mem_cons.mpr ⟨trivial, List.forall_mem_cons.mpr ⟨rfl, ?_⟩⟩
    exact List.forall_mem_nil _
  exact (bracket_releases_iff hn rfl run rfl rfl hbefore loggedRun_private).mpr hu

/-- An acquisition that trips the token of the run and succeeds nevertheless. -/
def trippingAcquisition : Node := .succeedLazy do
  Action.perform (.interrupt 0)
  return .ok loggedLease.resource

/-- A resource that has been acquired and handed over, but is never released. -/
theorem bracket_leaks :
    ∃ (h : History) (m : Interpreter) (v w' : World),
      Process.Run Eq (.start (loggedLease.bracketed trippingAcquisition) (.plain .null) 0 100)
          { (World.newToken default).2 with cells := #[none] } h (.settled .interrupted) w' ∧
        h[4]? = some (.next m loggedLease.handedOver, v) ∧ m.frames.frames = [.finalize loggedLease.guard] ∧ w'.log = #[] ∧
        ∀ y ∈ h, ¬ y.1.Releases loggedLease y.2 := by
  refine ⟨(loggedRun trippingAcquisition).1, _, _, _, Process.alone_run 40 _ _, rfl, rfl, rfl, fun y hy ⟨_, hr⟩ => ?_⟩
  have hempty : ((loggedRun trippingAcquisition).1.all fun y => y.2.cells[0]?.join.isNone) = true := rfl
  have hnone := List.all_eq_true.mp hempty y hy
  rw [show y.2.cells[0]? = some (some loggedLease.resource) from hr.holds] at hnone
  nomatch hnone

end Interruptible
