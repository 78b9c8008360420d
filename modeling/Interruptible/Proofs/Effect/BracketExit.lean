import Interruptible.Proofs.Effect.StartedRelease

/-!
# How brackets end

A bracket that nobody interrupts, and whose acquisition comes to a resource, ends with the exit of its use if the effect that the
release has built succeeds, and with the failure of that effect otherwise, which is appended to a failure of the use
(`Exit.followedBy`). This goes for every exit of the use and for every release that builds an effect. A release that panics
instead builds nothing, and the bracket ends with the defect alone (`bracket_exit`): a failure of the use is lost then
(`use_failure_lost`), although a release that fails with the same defect would have kept it.
-/

namespace Interruptible

/-- The exit of a use, followed by that of a release: a failing release takes the place of a success and is appended to a
failure. -/
def Exit.followedBy : (used released : Exit Value Payload) → Exit Value Payload
  | used, .success _ => used
  | .failure c, .failure r => .failure (c.andThen r)
  | .success _, .failure r => .failure r

/-- What the frames are popped with after an exit. -/
def Exit.outcome : Exit Value Payload → Outcome
  | .success p => .value p
  | .failure c => .failure c

theorem Node.afterRelease_eq (used released : Exit Value Payload) :
    afterRelease used released = done (used.followedBy released) := by
  cases released with
  | success p => cases used <;> rfl
  | failure r => cases used <;> rfl

theorem Outcome.eq_outcome {o : Outcome} {e : Exit Value Payload} (h : o.exit? = some e) : o = e.outcome := by
  cases o with
  | value p => rw [← Option.some.inj h]; rfl
  | failure c => rw [← Option.some.inj h]; rfl
  | interruption => nomatch h

theorem Exit.exit?_outcome (e : Exit Value Payload) : e.outcome.exit? = some e := by cases e <;> rfl

/-- A finalizer that an interpreter runs above some frames finds that nobody has tripped its token. -/
def Process.Shielded (base : List Frame) : Process → World → Prop
  | .finalizing m _ child, w => m.frames.frames = base → child.Undisturbed w
  | _, _ => True

/-- How a bracket ends whose acquisition has come to a resource, told by the turns of its interpreter. -/
inductive Lease.Ends (b : Lease) (base : List Frame) : History → Exit Value Payload → Prop where
  /-- The release has been told the exit of the use and has built an effect, and that one has come to its exit: the bracket ends
  with the one exit followed by the other. -/
  | released {h₁ h₂ h₃ h₄ h₅ h₆ : History} {y₁ y₂ y₃ y₄ y₅ : Process × World} {r : Payload} {used released : Exit Value Payload}
      {n : Node} (acquired : b.Acquires base r y₁.1 y₁.2) (use : y₂.1.ComesTo (b.useFrames base) used)
      (release : y₃.1.ReleasesWith (b.lent r) used y₃.2) (built : ((b.release r used).run (b.emptied y₃.2)).1 = .ok n)
      (ends : y₄.1.ComesTo (b.releaseFrames base used) released) (left : y₅.1.ComesTo base (used.followedBy released)) :
      Ends b base (h₁ ++ y₁ :: h₂ ++ y₂ :: h₃ ++ y₃ :: h₄ ++ y₄ :: h₅ ++ y₅ :: h₆) (used.followedBy released)
  /-- The release has been told the exit of the use and has panicked: whatever that exit is, the bracket ends with the defect. -/
  | panicked {h₁ h₂ h₃ h₄ h₅ : History} {y₁ y₂ y₃ y₄ : Process × World} {r : Payload} {used : Exit Value Payload} {pn : Panic}
      (acquired : b.Acquires base r y₁.1 y₁.2) (use : y₂.1.ComesTo (b.useFrames base) used)
      (release : y₃.1.ReleasesWith (b.lent r) used y₃.2) (panics : ((b.release r used).run (b.emptied y₃.2)).1 = .error pn)
      (left : y₄.1.ComesTo base (.failure (.die pn.defect))) :
      Ends b base (h₁ ++ y₁ :: h₂ ++ y₂ :: h₃ ++ y₃ :: h₄ ++ y₄ :: h₅) (.failure (.die pn.defect))

namespace Process.Run

variable {R : World → World → Prop} {m : Interpreter} {n : Node} {p : Process} {w v : World} {h : History}
  {x : Exit Value Payload}

/-- The first turn of a run that settles. -/
theorem step (run : Run R p w h (.settled x) v) (hp : p.exit? = none) :
    ∃ w' h', h = (p, w') :: h' ∧ Run R (p.turn w').process (p.turn w').world h' (.settled x) v := by
  obtain ⟨w', h', heq, -, run'⟩ := run.uncons (I := fun _ => True) (fun _ _ _ _ => trivial) hp nofun trivial
  exact ⟨w', h', heq, run'⟩

/-- The first turn that a finalizer takes. -/
theorem step_finalizing {o : Outcome} {child : Process} (run : Run R (.finalizing m o child) w h (.settled x) v)
    (hc : child.exit? = none) :
    ∃ w' h', h = (.finalizing m o child, w') :: h' ∧
      Run R (.finalizing m o (child.turn w').process) (child.turn w').world h' (.settled x) v := by
  obtain ⟨w', h', heq, run'⟩ := run.step rfl
  rw [turn_finalizing m o hc] at run'
  exact ⟨w', h', heq, run'⟩

/-- An interpreter that does not notice interruption takes the node that it is about to take. -/
theorem taken (run : Run R (.next m n) w h (.settled x) v) (hu : ∀ y ∈ h, ¬ y.1.Notices y.2) :
    ∃ w₁ w₂ h', h = (.next m n, w₁) :: (.counted m.tick n, w₂) :: h' ∧ w₂.isInterrupted m.token = false ∧
      Run R (m.tick.take n w₂).process (m.tick.take n w₂).world h' (.settled x) v := by
  obtain ⟨w₁, w₂, h', rfl, ⟨ho, -⟩ | ⟨ho, -, run'⟩⟩ :=
    run.dispatch (I := fun _ => True) (fun _ _ _ _ => trivial) (fun _ _ _ _ => trivial) nofun trivial
  · exact absurd (.checked ho) (hu (.counted m.tick n, w₂) (by simp))
  · exact ⟨w₁, w₂, h', rfl, ho, run'⟩

/-- An exit that is known already is what the frames are popped with. -/
theorem taken_done {e : Exit Value Payload} (run : Run R (.next m (.done e)) w h (.settled x) v)
    (hu : ∀ y ∈ h, ¬ y.1.Notices y.2) :
    ∃ w₁ w₂ h', h = (.next m (.done e), w₁) :: (.counted m.tick (.done e), w₂) :: h' ∧
      Run R (.popping m.tick e.outcome) (m.tick.take (.done e) w₂).world h' (.settled x) v := by
  obtain ⟨w₁, w₂, h', heq, -, run'⟩ := run.taken hu
  refine ⟨w₁, w₂, h', heq, ?_⟩
  cases e <;> exact run'

/-- What is popped at the bottom of the stack is what the interpreter settles with. -/
theorem exit_of_comesTo {h₁ h₂ : History} {y : Process × World} {e : Exit Value Payload}
    (run : Run R p w (h₁ ++ y :: h₂) (.settled x) v) (hc : y.1.ComesTo [] e) : x = e := by
  obtain ⟨-, run'⟩ := run.split
  obtain ⟨q, u⟩ := y
  obtain ⟨m, o, rfl, hf, ho⟩ := hc
  obtain rfl := Outcome.eq_outcome ho
  have hturn : (Process.turn (.popping m e.outcome) u).process = .settled e := by
    simp only [Process.turn, Interpreter.pop_nil hf]
    cases e <;> rfl
  obtain ⟨-, hsettled⟩ := run'.of_settled hturn
  exact Process.settled.inj hsettled

end Process.Run

namespace Lease

variable {b : Lease} {base : List Frame} {R : World → World → Prop} {m m' : Interpreter} {w v : World} {h : History}
  {x e : Exit Value Payload} {r : Payload}

/-- Without a resource in the cell the guard builds nothing. -/
theorem guard_idle (hw : ∀ r, ¬ (b.lent r).Holds w) (ho : w.isInterrupted m.token = false) :
    (Process.turn (.counted m b.guard) w).process = .next m .unit := by
  have hw' : ∀ r, ¬ (b.lent r).Holds (w.record (.step b.guard.kind m.frames.height)) := hw
  rw [Process.turn_counted ho]
  exact (congrArg Turn.process (m.goOn_eq _ _)).trans
    (congrArg (fun x => Process.next m (Node.built x.1)) (guard_run_idle hw' rfl))

/-- The guard of a bracket whose resource has been released already leaves the outcome as it is. -/
theorem guard_passes {o : Outcome} (run : Process.Run R (.finalizing m o (.next m' b.guard)) w h (.settled x) v)
    (hf : m.frames.frames = base) (hf' : m'.frames.frames = []) (hq : b.Quiet h)
    (hs : ∀ y ∈ h, y.1.Shielded base y.2) :
    ∃ h₁ u h₂, h = h₁ ++ (.popping m o, u) :: h₂ := by
  obtain ⟨w₁, h₁, rfl, run₁⟩ := run.step_finalizing rfl
  rw [(Process.turn_next m' _ w₁).1] at run₁
  obtain ⟨w₂, h₂, rfl, run₂⟩ := run₁.step_finalizing rfl
  have ho : w₂.isInterrupted m'.tick.token = false := hs (.finalizing m o (.counted m'.tick b.guard), w₂) (by simp) hf
  have hw : ∀ r, ¬ (b.lent r).Holds w₂ := fun r hw =>
    (hq (.finalizing m o (.counted m'.tick b.guard), w₂) (by simp)).release r .interrupted (.guarded (b := b.lent r) o ho hw)
  rw [guard_idle hw ho] at run₂
  obtain ⟨w₃, h₃, rfl, run₃⟩ := run₂.step_finalizing rfl
  rw [(Process.turn_next m'.tick _ w₃).1] at run₃
  obtain ⟨w₄, h₄, rfl, run₄⟩ := run₃.step_finalizing rfl
  have ho' : w₄.isInterrupted m'.tick.tick.token = false :=
    hs (.finalizing m o (.counted m'.tick.tick .unit), w₄) (by simp) hf
  have htake : (m'.tick.tick.take .unit w₄).process = .popping m'.tick.tick (.value .unit) := rfl
  rw [Process.turn_counted ho', htake] at run₄
  obtain ⟨w₅, h₅, rfl, run₅⟩ := run₄.step_finalizing rfl
  have hpop : (Process.turn (.popping m'.tick.tick (.value .unit)) w₅).process = .settled (.success .unit) := by
    simp only [Process.turn, Interpreter.pop_nil (m := m'.tick.tick) hf']
    rfl
  rw [hpop] at run₅
  obtain ⟨w₆, h₆, rfl, run₆⟩ := run₅.step rfl
  obtain ⟨w₇, h₇, rfl, -⟩ := run₆.step rfl
  exact ⟨[_, _, _, _, _, _], w₇, h₇, rfl⟩

/-- A bracket whose resource has been released already ends with the exit that its continuation has come to. -/
theorem left (run : Process.Run R (.next m (.done e)) w h (.settled x) v) (hf : m.frames.frames = b.guardedFrames base)
    (hu : ∀ y ∈ h, ¬ y.1.Notices y.2) (hq : b.Quiet h) (hs : ∀ y ∈ h, y.1.Shielded base y.2) :
    ∃ h₁ y h₂, h = h₁ ++ y :: h₂ ∧ y.1.ComesTo base e := by
  obtain ⟨w₁, w₂, h₁, rfl, run₁⟩ := run.taken_done hu
  obtain ⟨w₃, h₂, rfl, run₂⟩ := run₁.step rfl
  obtain ⟨s', hs', hpop⟩ := Interpreter.pop_finalize (m := m.tick) hf e.outcome w₃
  simp only [Process.turn, hpop] at run₂
  obtain ⟨h₃, u, h₄, rfl⟩ := guard_passes run₂ hs' rfl (fun y hy => hq y (by simp [hy])) fun y hy => hs y (by simp [hy])
  exact ⟨_ :: _ :: _ :: h₃, _, h₄, rfl, _, _, rfl, hs', e.exit?_outcome⟩

/-- A resource that has been handed over is used, unless interruption is noticed. -/
theorem uses_of_handedOver (run : Process.Run R (.next m (b.lent r).handedOver) w h (.settled x) v)
    (hu : ∀ y ∈ h, ¬ y.1.Notices y.2) : ∃ y ∈ h, y.1.Uses (b.lent r) y.2 := by
  obtain ⟨w₁, w₂, h₁, rfl, -, run₁⟩ := run.taken hu
  have run₁ : Process.Run R (.next (m.tick.push (b.lent r).resume) (b.lent r).start.result) _ h₁ (.settled x) v := run₁
  obtain ⟨w₃, w₄, h₂, rfl, -, run₂⟩ := run₁.taken fun y hy => hu y (by simp [hy])
  have run₂ : Process.Run R (.next ((m.tick.push (b.lent r).resume).tick.push capture) (b.lent r).start) _ h₂ (.settled x) v :=
    run₂
  obtain ⟨w₅, w₆, h₃, rfl, ho, -⟩ := run₂.taken fun y hy => hu y (by simp [hy])
  exact ⟨(.counted _ (b.lent r).start, w₆), .tail _ (.tail _ (.tail _ (.tail _ (.tail _ (.head _))))), Process.uses_start ho⟩

/-- The exit of an effect is captured. -/
theorem capture_turn {fs : List Frame} (hf : m.frames.frames = capture :: fs) (e : Exit Value Payload) (w : World) :
    ∃ m', m'.frames.frames = fs ∧ (Process.turn (.popping m e.outcome) w).process = .next m' (.done (.success (.exit e))) := by
  obtain ⟨s', hpop, hs⟩ := FrameStack.pop?_eq_some hf
  refine ⟨{ m with frames := s' }, hs, ?_⟩
  cases e with
  | success p =>
    simp only [Process.turn, Exit.outcome, Interpreter.pop, hpop]
    rfl
  | failure c =>
    simp only [Process.turn, Exit.outcome, Interpreter.pop, hpop]
    rfl

/-- What is to be made of the exits of a use and of its release. -/
theorem afterRelease_turn {used : Exit Value Payload} (released : Exit Value Payload) {fs : List Frame}
    (hf : m.frames.frames = .apply (Node.onExit fun r => return Node.afterRelease used r) :: fs) (w : World) :
    ∃ m', m'.frames.frames = fs ∧
      (Process.turn (.popping m (.value (.exit released))) w).process = .next m' (.done (used.followedBy released)) := by
  obtain ⟨s', hpop, hs⟩ := FrameStack.pop?_eq_some hf
  refine ⟨{ m with frames := s' }, hs, ?_⟩
  simp only [Process.turn, Interpreter.pop, hpop]
  rw [← Node.afterRelease_eq]
  rfl

/-- The effect that a release has built comes to its exit, and the bracket ends with that of the use followed by it. -/
theorem released_left {n : Node} {used : Exit Value Payload}
    (run : Process.Run R (.next m (n.result.chain (Node.onExit fun r => return Node.afterRelease used r))) w h (.settled x) v)
    (hf : m.frames.frames = b.guardedFrames base) (hu : ∀ y ∈ h, ¬ y.1.Notices y.2) (hq : b.Quiet h)
    (hs : ∀ y ∈ h, y.1.Shielded base y.2) :
    ∃ h₁ y h₂ z h₃ released, h = h₁ ++ y :: h₂ ++ z :: h₃ ∧ y.1.ComesTo (b.releaseFrames base used) released ∧
      z.1.ComesTo base (used.followedBy released) := by
  cases run.fate_result hf with
  | cutShort noticed => exact absurd noticed (hu _ (by simp))
  | @completed h₁ h₂ h₃ m₁ w₁ z released _ _ ends _ =>
    obtain ⟨-, run₁⟩ := run.split
    obtain ⟨p, u⟩ := z
    obtain ⟨m₂, o, rfl, hf₂, ho⟩ := ends
    obtain rfl := Outcome.eq_outcome ho
    obtain ⟨m₃, hf₃, hturn⟩ := capture_turn hf₂ released u
    rw [hturn] at run₁
    obtain ⟨w₂, w₃, h₄, rfl, run₂⟩ := run₁.taken_done fun y hy => hu y (by simp [hy])
    obtain ⟨w₄, h₅, rfl, run₃⟩ := run₂.step rfl
    obtain ⟨m₄, hf₄, hturn'⟩ := afterRelease_turn (m := m₃.tick) released hf₃ w₄
    rw [Exit.outcome, hturn'] at run₃
    obtain ⟨h₆, z, h₇, rfl, hleft⟩ := left run₃ hf₄ (fun y hy => hu y (by simp [hy])) (fun y hy => hq y (by simp [hy]))
      fun y hy => hs y (by simp [hy])
    exact ⟨_, (.popping m₂ released.outcome, u), _ :: _ :: _ :: h₆, z, h₇, released,
      (List.append_assoc _ (_ :: _ :: _ :: _ :: h₆) _).symm, ⟨m₂, _, rfl, hf₂, ho⟩, hleft⟩

end Lease

/-- How a bracket ends whose acquisition has come to a resource, in a run in which interruption is not noticed and nobody reaches
the token of its guard: with the exit of its use, followed by that of the effect that its release has built, if it has built
one; and if the release has panicked, with that defect alone. -/
theorem bracket_exit {R : World → World → Prop} {acquire n : Node} {b : Lease} {m : Interpreter} {w₀ w v : World}
    {h : History} {x : Exit Value Payload} (hn : (Node.bracketExit acquire b.use b.release).run w₀ = (.ok n, w))
    (hcell : b.cell = w₀.cells.size) (run : Process.Run R (.next m n) w h (.settled x) v)
    (howned : b.Owned m.frames.frames R h) (hshielded : ∀ y ∈ h, y.1.Shielded m.frames.frames y.2)
    (hunnoticed : ∀ y ∈ h, ¬ y.1.Notices y.2) (hacquired : ∃ y ∈ h, ∃ r, b.Acquires m.frames.frames r y.1 y.2) :
    ∃ e, b.Ends m.frames.frames h e ∧ (m.frames.frames = [] → x = e) := by
  have hcourse := bracket_releases_once hn hcell run howned
  cases hcourse with
  | unused quiet =>
    obtain ⟨y, hy, r, -, m', hturn, -⟩ := hacquired
    obtain ⟨h₁, h₂, rfl⟩ := List.append_of_mem hy
    obtain ⟨-, run'⟩ := run.split
    rw [hturn] at run'
    obtain ⟨z, hz, huse⟩ := Lease.uses_of_handedOver run' fun z hz => hunnoticed z (by simp [hz])
    exact absurd huse ((quiet z (by simp [hz])).use r)
  | inUse _ _ _ _ hq => nomatch hq
  | @released h₁ h₂ h₃ y z _ r used acquired _ _ _ release told after =>
    obtain ⟨y₁, hy₁, hacquires⟩ := acquired
    obtain ⟨h₀, h₁, rfl⟩ := List.append_of_mem hy₁
    obtain ⟨p, u⟩ := z
    obtain ⟨-, run'⟩ := run.split
    have hu : ∀ y ∈ h₃, ¬ y.1.Notices y.2 := fun y hy => hunnoticed y (by simp [hy])
    have hs : ∀ y ∈ h₃, y.1.Shielded m.frames.frames y.2 := fun y hy => hshielded y (by simp [hy])
    cases told with
    | interrupted _ _ noticed =>
      obtain ⟨x, hx, hn⟩ := noticed
      exact absurd hn (hunnoticed x (by simp [hx]))
    | @continued h₂ m₀ m₁ m₂ m₃ o w₀ w₁ w₂ _ evaluated hf =>
      have huse : (Process.popping m₀ o).ComesTo (b.useFrames m.frames.frames) used := ⟨m₀, o, rfl, evaluated.2, evaluated.3⟩
      obtain ⟨m', hf', hturn⟩ := Lease.releases_next hf release.holds used
      cases hbuilt : ((b.release r used).run (b.emptied u)).1 with
      | ok n' =>
        rw [hturn, hbuilt] at run'
        obtain ⟨h₄, y₄, h₅, y₅, h₆, released, rfl, hends, hleft⟩ := Lease.released_left run' hf' hu after hs
        have hturns : h₀ ++ y₁ :: h₁ ++ y :: (h₂ ++ [(.popping m₀ o, w₀), (.next m₁ (.succeed (.exit used)), w₁),
              (.counted m₂ (.succeed (.exit used)), w₂)]) ++ (.popping m₃ (.value (.exit used)), u) ::
                (h₄ ++ y₄ :: h₅ ++ y₅ :: h₆) =
            h₀ ++ y₁ :: (h₁ ++ y :: h₂) ++ (.popping m₀ o, w₀) :: [(.next m₁ (.succeed (.exit used)), w₁),
              (.counted m₂ (.succeed (.exit used)), w₂)] ++ (.popping m₃ (.value (.exit used)), u) :: h₄ ++
                y₄ :: h₅ ++ y₅ :: h₆ := by simp
        rw [hturns] at run ⊢
        exact ⟨_, .released hacquires huse release hbuilt hends hleft, fun hnil => run.exit_of_comesTo (hnil ▸ hleft)⟩
      | error pn =>
        rw [hturn, hbuilt] at run'
        obtain ⟨h₄, y₄, h₅, rfl, hleft⟩ := Lease.left (e := .failure (.die pn.defect)) run' hf' hu after hs
        have hturns : h₀ ++ y₁ :: h₁ ++ y :: (h₂ ++ [(.popping m₀ o, w₀), (.next m₁ (.succeed (.exit used)), w₁),
              (.counted m₂ (.succeed (.exit used)), w₂)]) ++ (.popping m₃ (.value (.exit used)), u) :: (h₄ ++ y₄ :: h₅) =
            h₀ ++ y₁ :: (h₁ ++ y :: h₂) ++ (.popping m₀ o, w₀) :: [(.next m₁ (.succeed (.exit used)), w₁),
              (.counted m₂ (.succeed (.exit used)), w₂)] ++ (.popping m₃ (.value (.exit used)), u) :: h₄ ++ y₄ :: h₅ := by
          simp
        rw [hturns] at run ⊢
        exact ⟨_, .panicked hacquires huse release hbuilt hleft, fun hnil => run.exit_of_comesTo (hnil ▸ hleft)⟩

/-- A resource whose use fails, with a release that is the same whatever it is told. -/
def failingLease (release : Action Node) : Lease where
  cell := 0
  resource := .value (.int 7)
  use _ := return .fail (.fail (.str "use"))
  release _ _ := release

/-- A run of its bracket. -/
def failingRun (release : Action Node) : History × Process × World :=
  Process.alone 60 (.start ((failingLease release).bracketed (.succeed (failingLease release).resource)) (.plain .null) 0 100)
    { (World.newToken default).2 with cells := #[none] }

/-- The release of that resource fails. -/
def failedRun : History × Process × World := failingRun (return .fail (.fail (.str "release")))

/-- Nobody but the bracket reaches its cell in that run. -/
theorem failedRun_owned : (failingLease (return .fail (.fail (.str "release")))).Owned [] Eq failedRun.1 where
  surroundings w v hm := by rw [hm]
  use _ _ _ _ _ _ := rfl
  release _ _ _ _ _ _ _ := rfl
  turns := by
    iterate 9 refine List.forall_mem_cons.mpr ⟨fun _ => rfl, ?_⟩
    refine List.forall_mem_cons.mpr ⟨fun hn => absurd (.start _ rfl) hn, ?_⟩
    iterate 5 refine List.forall_mem_cons.mpr ⟨fun _ => rfl, ?_⟩
    refine List.forall_mem_cons.mpr ⟨fun hn => absurd (.resume _ rfl) hn, ?_⟩
    iterate 23 refine List.forall_mem_cons.mpr ⟨fun _ => rfl, ?_⟩
    exact List.forall_mem_nil _
  spent := Lease.spent_once 9 rfl rfl
  guarded := by
    iterate 33 refine List.forall_mem_cons.mpr ⟨trivial, ?_⟩
    refine List.forall_mem_cons.mpr ⟨fun _ => rfl, List.forall_mem_cons.mpr ⟨trivial, ?_⟩⟩
    refine List.forall_mem_cons.mpr ⟨fun _ => rfl, ?_⟩
    iterate 3 refine List.forall_mem_cons.mpr ⟨trivial, ?_⟩
    exact List.forall_mem_nil _

/-- In that run interruption is not noticed: no node is an interrupt node, and nobody has tripped the token. -/
theorem failedRun_unnoticed : ∀ y ∈ failedRun.1, ¬ y.1.Notices y.2 := by
  have hlooks : (failedRun.1.all fun y => match y.1 with
    | .counted _ .interrupt | .counted _ (.liftPromise _ _) | .awaiting _ _ | .joining _ _ _ _ => false
    | .counted m _ => !y.2.isInterrupted m.token
    | _ => true) = true := rfl
  rintro ⟨p, w⟩ hy hn
  have hlook := List.all_eq_true.mp hlooks _ hy
  cases hn with
  | @checked m n _ ht => cases n <;> simp_all
  | _ => nomatch hlook

/-- The failure of the release follows that of the use. -/
theorem bracket_exit_failed :
    ∃ v, Process.Run Eq (.start ((failingLease (return .fail (.fail (.str "release")))).bracketed (.succeed (.value (.int 7))))
          (.plain .null) 0 100) { (World.newToken default).2 with cells := #[none] } failedRun.1
          (.settled (.failure (.then (.fail (.str "use")) (.fail (.str "release"))))) v ∧
        ∃ e, (failingLease (return .fail (.fail (.str "release")))).Ends [] failedRun.1 e ∧
          .failure (.then (.fail (.str "use")) (.fail (.str "release"))) = e := by
  have run : Process.Run Eq
      (.start ((failingLease (return .fail (.fail (.str "release")))).bracketed (.succeed (.value (.int 7)))) (.plain .null) 0 100)
      { (World.newToken default).2 with cells := #[none] } failedRun.1
      (.settled (.failure (.then (.fail (.str "use")) (.fail (.str "release"))))) failedRun.2.2 := Process.alone_run 60 _ _
  have hn := Lease.bracketExit_run (b := failingLease (return .fail (.fail (.str "release")))) (w := (World.newToken default).2)
    rfl (.succeed (.value (.int 7)))
  have hshielded : ∀ y ∈ failedRun.1, y.1.Shielded [] y.2 := by
    iterate 32 refine List.forall_mem_cons.mpr ⟨trivial, ?_⟩
    iterate 2
      refine List.forall_mem_cons.mpr ⟨fun _ => trivial, ?_⟩
      refine List.forall_mem_cons.mpr ⟨fun _ => rfl, ?_⟩
    iterate 2 refine List.forall_mem_cons.mpr ⟨fun _ => trivial, ?_⟩
    refine List.forall_mem_cons.mpr ⟨trivial, List.forall_mem_nil _⟩
  have hacquired : ∃ y ∈ failedRun.1, ∃ r, (failingLease (return .fail (.fail (.str "release")))).Acquires [] r y.1 y.2 :=
    ⟨_, List.mem_of_getElem? (i := 3) rfl, .value (.int 7), List.mem_cons_self, _, rfl, rfl⟩
  obtain ⟨e, hends, hexit⟩ := bracket_exit hn rfl run failedRun_owned hshielded failedRun_unnoticed hacquired
  exact ⟨_, run, e, hends, hexit rfl⟩

/-- The use fails, and the release that is told so panics: the bracket ends with the defect alone, and not with the failure of the
use followed by it. -/
theorem use_failure_lost :
    ∃ v, Process.Run Eq
          (.start ((failingLease (.panic (.text "release"))).bracketed (.succeed (.value (.int 7)))) (.plain .null) 0 100)
          { (World.newToken default).2 with cells := #[none] } (failingRun (.panic (.text "release"))).1
          (.settled (.failure (.die (Panic.text "release").defect))) v ∧
        (∃ y ∈ (failingRun (.panic (.text "release"))).1,
          y.1.ComesTo ((failingLease (.panic (.text "release"))).useFrames []) (.failure (.fail (.str "use")))) ∧
        (∃ y ∈ (failingRun (.panic (.text "release"))).1,
          y.1.ReleasesWith (failingLease (.panic (.text "release"))) (.failure (.fail (.str "use"))) y.2) ∧
        Exit.failure (.die (Panic.text "release").defect) ≠
          (Exit.failure (.fail (.str "use"))).followedBy (.failure (.die (Panic.text "release").defect)) := by
  have run : Process.Run Eq
      (.start ((failingLease (.panic (.text "release"))).bracketed (.succeed (.value (.int 7)))) (.plain .null) 0 100)
      { (World.newToken default).2 with cells := #[none] } (failingRun (.panic (.text "release"))).1
      (.settled (.failure (.die (Panic.text "release").defect))) (failingRun (.panic (.text "release"))).2.2 :=
    Process.alone_run 60 _ _
  exact ⟨_, run, ⟨_, List.mem_of_getElem? (i := 12) rfl, _, _, rfl, rfl, rfl⟩,
    ⟨_, List.mem_of_getElem? (i := 15) rfl, Process.AtRelease.releasesWith (f := Node.concluding _) ⟨rfl, rfl, rfl⟩ rfl⟩, nofun⟩

end Interruptible
