import Interruptible.Proofs.Effect.ReleaseOnce

/-!
# Releases that have been started

What becomes of the effect that a release has built depends on who has called the release (`started_release`). The guard runs it
as a finalizer, under a token of its own, and it comes to its exit, whatever happens to the token of the run. The continuation
of the use hands it to the interpreter of the run, which looks at the token of the run as it does everywhere: the effect comes
to its exit if and only if the interpreter has not noticed interruption before. A release that is cut short there stays
undone, for the resource has left its cell and the guard finds nothing (`release_cut_short`).
-/

namespace Interruptible

/-- The frames under which the interpreter of a bracket evaluates a release that has been told of an exit. -/
def Lease.releaseFrames (b : Lease) (base : List Frame) (used : Exit Value Payload) : List Frame :=
  capture :: .apply (Node.onExit fun r => return Node.afterRelease used r) :: b.guardedFrames base

/-- What becomes of the effect that a release has built, told by the process that calls the release and the turns after that. -/
inductive Lease.Started (b : Lease) (base : List Frame) (n : Node) (used : Exit Value Payload) : Process → History → Prop where
  /-- The continuation of the use has called the release, and the interpreter goes on with the effect. -/
  | continued {m : Interpreter} {p : Payload} {h : History} (fate : h.Fate (b.releaseFrames base used) n) :
    Started b base n used (.popping m (.value p)) h
  /-- The guard has called the release. It is an interpreter of its own, with another token, and runs the effect to its exit;
  the interpreter of the bracket waits for that and does nothing else. -/
  | guarded {m m' : Interpreter} {o : Outcome} {h₁ h₂ : History} {u : World} {e : Exit Value Payload}
      (apart : m'.token ≠ m.token) (hf : m'.frames.frames = [])
      (waits : ∀ y ∈ h₁, ∃ c, y.1 = .finalizing m o c ∧ c.exit? = none)
      (runs : Process.Traced (History.turns h₁) (.next m' n) (.settled e)) :
    Started b base n used (.finalizing m o (.counted m' b.guard)) (h₁ ++ (.finalizing m o (.settled e), u) :: h₂)

/-! ## Tokens of finalizers -/

/-- The token of an interpreter has been made, and the finalizer that it waits for has another one. -/
def Process.Apart (p : Process) (w : World) : Prop :=
  ∀ m, p.interpreter? = some m → m.token < w.tokens.size ∧
    ∀ child m', p.finalizer? = some child → child.interpreter? = some m' → m'.token ≠ m.token

/-- A finalizer starts under a new token. -/
theorem Process.Apart.turn {p : Process} {w : World} (hp : p.Apart w) (hx : p.exit? = none) :
    (p.turn w).process.Apart (p.turn w).world := by
  intro m' hm'
  obtain ⟨m, hm, htoken, -⟩ := turn_interpreter hm'
  obtain ⟨hlt, hchild⟩ := hp m hm
  rw [htoken]
  refine ⟨Nat.lt_of_lt_of_le hlt (turn_later p w).tokens, fun child mc hc hmc => ?_⟩
  have hshift := p.turn_shift w hx
  generalize hev : p.frameEvents w = events at hshift
  cases hshift with
  | idle _ hfin => nomatch hfin.symm.trans hc
  | push _ _ hfin => nomatch hfin.symm.trans hc
  | pop _ _ _ hfin => nomatch hfin.symm.trans hc
  | finish _ _ hfin => nomatch hfin.symm.trans hc
  | work child' hx' hfin hfin' =>
    obtain rfl := Option.some.inj (hfin'.symm.trans hc)
    obtain ⟨mc', hmc', heq, -⟩ := turn_interpreter hmc
    rw [heq]
    exact hchild child' mc' hfin hmc'
  | start n _ _ _ _ _ hf =>
    obtain ⟨m₀, o, rfl⟩ := popping_of_popped (p := p) (w := w) (f := .finalize n) (by rw [hev]; exact List.mem_cons_self)
    obtain rfl := Option.some.inj hm
    obtain ⟨s', -, hpop⟩ := Interpreter.pop_finalize hf o w
    simp only [Process.turn, hpop, finalizer?] at hc
    obtain rfl := Option.some.inj hc
    obtain rfl := Option.some.inj hmc
    exact Nat.ne_of_gt hlt

theorem Process.Run.apart {R : World → World → Prop} (hR : ∀ a b, R a b → World.Later a b) {p q : Process} {w v : World}
    {h : History} (run : Run R p w h q v) (hp : p.Apart w) : q.Apart v := by
  induction run with
  | done => exact hp
  | turn hx _ ih => exact ih (hp.turn hx)
  | moved hm _ ih =>
    refine ih fun m hm' => ?_
    obtain ⟨hlt, hchild⟩ := hp m hm'
    exact ⟨Nat.lt_of_lt_of_le hlt (hR _ _ hm).tokens, hchild⟩

/-! ## What the callers of a release go on with -/

namespace Lease

variable {b : Lease} {base : List Frame} {R : World → World → Prop} {w : World} {n : Node} {e : Exit Value Payload}

/-- Whoever calls the release is the continuation of the use, or the guard, which has just been started. -/
theorem Stage.releasing {acquire : Node} {h : History} {p : Process} {r : Payload} (hp : b.Stage base acquire h p w)
    (howned : b.Owned base R (h ++ [(p, w)])) (hrel : p.ReleasesWith (b.lent r) e w) :
    (∃ m, p = .popping m (.value (.exit e)) ∧ m.frames.frames = b.resumeFrames base) ∨
      ∃ m m', p = .finalizing m .interruption (.counted m' b.guard) ∧ m'.frames.frames = [] ∧ e = .interrupted := by
  have hholds : w.cells[b.cell]? = some (some r) := hrel.holds
  cases hp with
  | before _ hw => nomatch hw.symm.trans hholds
  | handed _ _ _ hw => nomatch hw.symm.trans hholds
  | unused _ hw => nomatch hw.symm.trans hholds
  | released _ _ _ _ _ _ _ _ _ hw => nomatch hw.symm.trans hholds
  | pending r' _ _ _ _ _ _ hp =>
    obtain ⟨_, hat, -⟩ := id hrel
    cases hp with
    | evaluating _ hp =>
      exact absurd hrel (howned.not_releases_above (List.mem_append_right _ List.mem_cons_self) hp r e)
    | @ended _ m o _ hf =>
      cases o with
      | value p =>
        have htop := hat.1
        rw [hf] at htop
        nomatch htop
      | _ => exact hat.elim
    | captured => exact hat.elim
    | counted => nomatch hat.1
    | @resuming _ _ _ _ m₃ _ _ _ _ e' _ hf =>
      obtain ⟨-, rfl, -⟩ := hat
      exact .inl ⟨m₃, rfl, hf⟩
    | skipping => exact hat.elim
    | unguarded => exact hat.elim
    | guardNext => exact hat.elim
    | @guardCounted _ m m' hf hf' =>
      obtain ⟨-, -, rfl, -⟩ := hat
      exact .inr ⟨m, m', rfl, hf', rfl⟩

/-- The continuation of the use calls the release, and goes on with what that has built. -/
theorem releases_next {m : Interpreter} {r : Payload} (hf : m.frames.frames = b.resumeFrames base)
    (hw : (b.lent r).Holds w) (used : Exit Value Payload) :
    ∃ m', m'.frames.frames = b.guardedFrames base ∧
      (Process.turn (.popping m (.value (.exit used))) w).process =
        .next m' (Node.built (((b.release r used).run (b.emptied w)).1.map (Node.concluding used))) := by
  obtain ⟨s', hpop, hs⟩ := FrameStack.pop?_eq_some hf
  have hrun : (Node.releaseAfterUse b.cell b.release used).run w = _ := releaseAfterUse_run (b := b.lent r) hw used
  refine ⟨{ m with frames := s' }, hs, ?_⟩
  simp only [Process.turn, Interpreter.pop, hpop, resume, Interpreter.goOn_eq, Node.onExit, hrun]
  rfl

/-- The guard calls the release, and goes on with what that has built: the node that is taken leaves a note in the world, of which
the release knows nothing. -/
theorem guard_releases_next {m' : Interpreter} {r : Payload} (ho : w.isInterrupted m'.token = false)
    (hw : (b.lent r).Holds w) :
    (Process.turn (.counted m' b.guard) w).process =
      .next m' (Node.built (((b.release r .interrupted).run (b.emptied w)).1.map Node.asUnit)) := by
  have hnote := World.Alike.of_record (b.emptied w) (.step b.guard.kind m'.frames.height)
  have hw' : (b.lent r).Holds (w.record (.step b.guard.kind m'.frames.height)) := hw
  rw [Process.turn_counted ho, ((b.release r .interrupted).run_alike hnote).1]
  exact (congrArg Turn.process (m'.goOn_eq _ _)).trans
    (congrArg (fun x => Process.next m' (Node.built x.1)) (guard_run (b := b.lent r) hw' rfl))

end Lease

/-- A node on the way to an effect: interruption is noticed when it is to be taken, or it is taken and the effect comes nearer. -/
theorem Process.Run.fate_step {R : World → World → Prop} {m : Interpreter} {n n' : Node} {w v : World} {h : History}
    {x : Exit Value Payload} {retained : List Frame} (run : Run R (.next m n) w h (.settled x) v)
    (hn : ∀ u, u.isInterrupted m.token = false → ¬ Notices (.counted m.tick n) u)
    (taken : ∀ u h', Run R (m.tick.take n u).process (m.tick.take n u).world h' (.settled x) v → History.Fate retained n' h') :
    h.Fate retained n' := by
  obtain ⟨w₁, w₂, h', rfl, hcase⟩ := run.dispatch (I := fun _ => True) (fun _ _ _ _ => trivial) (fun _ _ _ _ => trivial) nofun
    trivial
  have next : ∀ e, ¬ (Process.next m n).ComesTo retained e := fun _ ⟨_, _, hp, _⟩ => nomatch hp
  have counted : ∀ e, ¬ (Process.counted m.tick n).ComesTo retained e := fun _ ⟨_, _, hp, _⟩ => nomatch hp
  rcases hcase with ⟨ho, hi⟩ | ⟨ho, -, run'⟩
  · show History.Fate retained n' ([(.next m n, w₁)] ++ (.counted m.tick n, w₂) :: h')
    refine .cutShort (.checked ho) ?_
    exact List.forall_mem_cons.mpr ⟨next, List.forall_mem_cons.mpr
      ⟨counted, fun z hz _ => not_comesTo_of_interrupted (hi z hz)⟩⟩
  · exact ((taken w₂ h' run').cons (hn w₂ ho) counted).cons nofun next

/-- An effect whose exit is captured for a continuation. -/
theorem Process.Run.fate_result {R : World → World → Prop} {m : Interpreter} {n : Node} {k : Payload → Action Node}
    {w v : World} {h : History} {x : Exit Value Payload} {fs : List Frame}
    (run : Run R (.next m (n.result.chain k)) w h (.settled x) v) (hf : m.frames.frames = fs) :
    h.Fate (Lease.capture :: .apply k :: fs) n := by
  refine run.fate_step (fun u ho hn => ?_) fun u h' run => ?_
  · cases hn with
    | checked ht => nomatch ho.symm.trans ht
  refine run.fate_step (m := m.tick.push (.apply k)) (n := n.result) (fun u ho hn => ?_) fun u h' run => ?_
  · cases hn with
    | checked ht => nomatch ho.symm.trans ht
  have hframes : ((m.tick.push (.apply k)).tick.push Lease.capture).frames.frames = Lease.capture :: .apply k :: fs :=
    congrArg (fun fs => Lease.capture :: .apply k :: fs) hf
  exact run.fate hframes nofun

/-- What becomes of the effect that a release has built, from the turn on in which the release is called. -/
theorem started_release {R : World → World → Prop} (hR : ∀ a b, R a b → World.Later a b) {acquire n n' : Node} {b : Lease}
    {m : Interpreter} {w₀ w v : World} {h₁ h₂ : History} {z : Process × World} {r : Payload} {e x : Exit Value Payload}
    (hn : (Node.bracketExit acquire b.use b.release).run w₀ = (.ok n, w)) (hcell : b.cell = w₀.cells.size)
    (ht : m.token < w₀.tokens.size) (run : Process.Run R (.next m n) w (h₁ ++ z :: h₂) (.settled x) v)
    (howned : b.Owned m.frames.frames R (h₁ ++ z :: h₂)) (hrel : z.1.ReleasesWith (b.lent r) e z.2)
    (hbuilt : ((b.release r e).run (b.emptied z.2)).1 = .ok n') : b.Started m.frames.frames n'.asUnit e z.1 h₂ := by
  rw [Lease.bracketExit_run hcell] at hn
  obtain ⟨hnode, rfl⟩ := Prod.mk.inj hn
  obtain rfl := Except.ok.inj hnode
  have howned' : b.Owned m.frames.frames R (h₁ ++ [z]) := by
    rw [show h₁ ++ z :: h₂ = h₁ ++ [z] ++ h₂ by simp] at howned
    exact howned.prefix
  obtain ⟨before, after⟩ := run.split
  have hstage := (Lease.Stage.start acquire hcell rfl).run before howned'.prefix
  have hy : z ∈ h₁ ++ [z] := List.mem_append_right _ List.mem_cons_self
  obtain ⟨p, u⟩ := z
  rcases hstage.releasing howned' hrel with ⟨m₁, rfl, hf⟩ | ⟨m₁, m₂, rfl, hf, rfl⟩
  · obtain ⟨m₂, hf', hnext⟩ := Lease.releases_next hf hrel.holds e
    rw [hnext, hbuilt] at after
    exact .continued (after.fate_result hf')
  · have hturn : (Process.turn (.finalizing m₁ .interruption (.counted m₂ b.guard)) u).process =
        .finalizing m₁ .interruption (.next m₂ n'.asUnit) := by
      rw [Process.turn_finalizing m₁ _ rfl, Lease.guard_releases_next (howned'.guarded _ hy rfl) hrel.holds, hbuilt]
      rfl
    have hstart : (Process.next m (b.bracketed acquire)).Apart { w₀ with cells := w₀.cells.push none } := by
      intro m' hm'
      obtain rfl := Option.some.inj hm'
      exact ⟨ht, fun _ _ hfin => nomatch hfin⟩
    have hapart := (before.apart hR hstart m₁ rfl).2 _ m₂ rfl rfl
    rw [hturn] at after
    obtain ⟨h₃, u', e, h₄, rfl, hwaits, htraced⟩ := after.finalizer
    exact .guarded hapart hf hwaits htraced

theorem started_release_told :
    ∃ (h₁ h₂ : History) (z : Process × World) (v : World),
      Process.Run Eq (.start (toldLease.bracketed (.succeed toldLease.resource)) (.plain .null) 0 100)
          { (World.newToken default).2 with cells := #[none] } (h₁ ++ z :: h₂) (.settled (.success toldLease.resource)) v ∧
        z.1.ReleasesWith toldLease (.success toldLease.resource) z.2 ∧
          toldLease.Started [] (Node.asUnit (.succeed .unit)) (.success toldLease.resource) z.1 h₂ := by
  have run : Process.Run Eq (.start (toldLease.bracketed (.succeed toldLease.resource)) (.plain .null) 0 100)
      { (World.newToken default).2 with cells := #[none] } (toldRun.1.take 15 ++ toldRun.1.drop 15)
      (.settled (.success toldLease.resource)) toldRun.2.2 := Process.alone_run 60 _ _
  have howned : toldLease.Owned [] Eq (toldRun.1.take 15 ++ toldRun.1.drop 15) := by
    rw [List.take_append_drop]
    exact toldRun_owned
  have hn := Lease.bracketExit_run (b := toldLease) (w := (World.newToken default).2) rfl (.succeed toldLease.resource)
  have hrel := Process.AtRelease.releasesWith (b := toldLease) (e := .success toldLease.resource) (p := toldRun.1[15].1)
    (w := toldRun.1[15].2) ⟨rfl, rfl, rfl⟩ rfl
  exact ⟨_, _, _, _, run, hrel,
    started_release (R := Eq) (r := toldLease.resource) (fun _ _ h => h ▸ .refl _) hn rfl Nat.zero_lt_one run howned hrel rfl⟩

/-- A resource whose release logs that it begins, waits for a while, and logs that it is done. -/
def slowLease : Lease where
  cell := 0
  resource := .value (.int 7)
  use p := return .succeed p
  release _ _ := do
    Action.perform (.log (.str "closing"))
    return (Node.fromFuture (.sleep 10 (.settle (.ok .unit)))).chain fun p => do
      Action.perform (.log (.str "closed"))
      return .succeed p

/-- A run of its bracket whose token is tripped while the release waits. -/
def slowRun : History × Process × World :=
  let (h, p, w) := Process.alone 27 (.start (slowLease.bracketed (.succeed slowLease.resource)) (.plain .null) 0 100)
    { (World.newToken default).2 with cells := #[none] }
  let (h', q, v) := p.alone 40 (w.interrupt 0)
  (h ++ h', q, v)

/-- A release that is cut short: its first part has been done, and its end is never reached. -/
theorem release_cut_short :
    ∃ (h₁ h₂ : History) (z : Process × World) (v : World),
      Process.Run World.Later (.start (slowLease.bracketed (.succeed slowLease.resource)) (.plain .null) 0 100)
          { (World.newToken default).2 with cells := #[none] } (h₁ ++ z :: h₂) (.settled .interrupted) v ∧
        z.1.ReleasesWith slowLease (.success slowLease.resource) z.2 ∧ v.log = #[.str "closing"] ∧
          ∀ y ∈ h₂, ∀ e, ¬ y.1.ComesTo (slowLease.releaseFrames [] (.success slowLease.resource)) e := by
  have run : Process.Run World.Later (.start (slowLease.bracketed (.succeed slowLease.resource)) (.plain .null) 0 100)
      { (World.newToken default).2 with cells := #[none] } (slowRun.1.take 15 ++ slowRun.1.drop 15) (.settled .interrupted)
      slowRun.2.2 :=
    (Process.alone_run 27 _ _).trans (.moved (World.interrupt_later 0 _) (Process.alone_run 40 _ _))
  refine ⟨_, _, _, _, run, Process.AtRelease.releasesWith (f := Node.concluding _) ⟨rfl, rfl, rfl⟩ rfl, rfl, fun y hy e hc => ?_⟩
  have hpops : ((slowRun.1.drop 16).all fun y => match y.1 with
    | .popping _ o => o.exit?.isNone
    | _ => true) = true := rfl
  have hnone := List.all_eq_true.mp hpops y hy
  obtain ⟨m, o, hp, -, ho⟩ := hc
  rw [hp] at hnone
  simp only [ho] at hnone
  nomatch hnone

end Interruptible
