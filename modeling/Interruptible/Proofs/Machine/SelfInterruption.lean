import Interruptible.Proofs.Machine.Evaluation
import Interruptible.Proofs.Machine.Sequential

/-!
# Runs that only interrupt themselves

A run whose tokens are tripped by nothing but interrupt nodes, each by those of its own interpreter, is a run that nobody
disturbs (`Process.Run.undisturbed`): after such a node the interpreter unwinds and does not look at its token again, and the
finalizers that it runs then have tokens of their own.
-/

namespace Interruptible

/-- The tokens of an interpreter and of the finalizers that are at work inside it. -/
def Process.tokens : Process → List TokenId
  | .next m _ | .counted m _ | .popping m _ | .awaiting m _ | .joining m _ _ _ => [m.token]
  | .finalizing m _ child => m.token :: child.tokens
  | .settled _ => []

/-- In this turn an interpreter takes an interrupt node, which trips its token. -/
def Process.GivesUp (t : TokenId) : Process → Prop
  | .counted m n => n = .interrupt ∧ m.token = t
  | .finalizing _ _ child => child.GivesUp t
  | _ => False

/-- No token of the interpreters at work has been tripped other than by an interrupt node of its own interpreter. -/
def Process.SelfTripped (p : Process) (w : World) : Prop :=
  ∀ t ∈ p.tokens, w.isInterrupted t = false → (p.turn w).world.isInterrupted t = true → p.GivesUp t

/-- Nobody has tripped the token of an interpreter that has not given up, and the finalizers have tokens of their own. -/
def Process.Untripped : Process → World → Prop
  | .next m _, w | .counted m _, w | .awaiting m _, w => w.isInterrupted m.token = false
  | .popping m o, w => o = .interruption ∨ w.isInterrupted m.token = false
  | .finalizing m o child, w =>
    (o = .interruption ∨ w.isInterrupted m.token = false) ∧ m.token ∉ child.tokens ∧ child.Untripped w
  | .joining _ _ _ _, _ => False
  | .settled _, _ => True

namespace Process

variable {p : Process} {w w' : World}

theorem GivesUp.mem_tokens {p : Process} {t : TokenId} (h : p.GivesUp t) : t ∈ p.tokens := by
  match p, h with
  | .counted m n, ⟨_, ht⟩ => exact List.mem_singleton.mpr ht.symm
  | .finalizing m o child, h => exact List.mem_cons_of_mem _ (GivesUp.mem_tokens (p := child) h)

/-- An interpreter that finds no token tripped is not disturbed. -/
theorem Untripped.undisturbed {p : Process} (h : p.Untripped w) : p.Undisturbed w := by
  match p, h with
  | .next m n, _ => trivial
  | .counted m n, h => exact h
  | .popping m o, _ => trivial
  | .finalizing m o child, ⟨_, _, hc⟩ => exact Untripped.undisturbed (p := child) hc
  | .awaiting m a, h => exact h
  | .settled e, _ => trivial

/-- Others that trip no token do no harm. -/
theorem Untripped.moved {p : Process} (h : p.Untripped w)
    (hm : ∀ t, w.isInterrupted t = false → w'.isInterrupted t = false) : p.Untripped w' := by
  match p, h with
  | .next m n, h => exact hm _ h
  | .counted m n, h => exact hm _ h
  | .popping m o, h => exact h.imp id (hm _)
  | .finalizing m o child, ⟨ho, ht, hc⟩ => exact ⟨ho.imp id (hm _), ht, Untripped.moved (p := child) hc hm⟩
  | .awaiting m a, h => exact hm _ h
  | .settled e, _ => trivial

/-- An interpreter that is not waiting for a finalizer. -/
theorem untripped_of_token (hp : p.Plain w) (hf : p.finalizer? = none)
    (ht : ∀ t ∈ p.tokens, w.isInterrupted t = false) : p.Untripped w := by
  cases p with
  | next m n => exact ht _ List.mem_cons_self
  | counted m n => exact ht _ List.mem_cons_self
  | popping m o => exact Or.inr (ht _ List.mem_cons_self)
  | finalizing m o child => exact absurd hf (Option.some_ne_none child)
  | awaiting m a => exact ht _ List.mem_cons_self
  | joining m g seen rest => exact absurd hp id
  | settled e => trivial

/-- An interpreter that has given up and is not waiting for a finalizer. -/
theorem untripped_of_interrupted (hi : p.Interrupted) (hf : p.finalizer? = none) : p.Untripped w := by
  match p, hi with
  | .popping m .interruption, _ => exact Or.inl rfl
  | .finalizing m .interruption child, _ => exact absurd hf (Option.some_ne_none child)
  | .settled e, _ => trivial

end Process

namespace Interpreter

variable (m : Interpreter) (w : World)

theorem take_tokens (n : Node) : (m.take n w).process.tokens = [m.token] := by
  have h := m.take_taken n w
  generalize (m.take n w).process = p at h ⊢
  cases h with
  | next n' ht hs hf => exact congrArg (fun t => [t]) ht
  | popping | interrupt | refused | awaiting | joining => rfl

theorem pollAwaited_tokens (a : Awaited) : (m.pollAwaited a w).process.tokens = [m.token] := by
  have h := m.pollAwaited_waited a w
  generalize (m.pollAwaited a w).process = p at h ⊢
  cases h <;> rfl

theorem finalized_tokens (o : Outcome) (e : Exit Value Payload) : (m.finalized o e w).process.tokens = [m.token] := by
  cases e with
  | success p => rfl
  | failure c => cases o <;> rfl

/-- Popping a frame that is no finalizer. -/
theorem pop_tokens_eq {f : Frame} {fs : List Frame} (h : m.frames.frames = f :: fs) (hf : ∀ n, f ≠ .finalize n)
    (o : Outcome) : (m.pop o w).process.tokens = [m.token] := by
  obtain ⟨s', hpop, -⟩ := FrameStack.pop?_eq_some h
  unfold pop
  rw [hpop]
  cases f with
  | finalize n => exact absurd rfl (hf n)
  | apply k => cases o <;> rfl
  | fold recover k => cases o <;> rfl
  | restore env => rfl

theorem pop_tokens (o : Outcome) : ∀ t ∈ (m.pop o w).process.tokens, t = m.token ∨ t = w.newToken.1 := by
  intro t ht
  cases hf : m.frames.frames with
  | nil =>
    rw [pop_nil hf] at ht
    exact absurd ht List.not_mem_nil
  | cons f fs =>
    by_cases hn : ∀ n, f ≠ .finalize n
    · rw [m.pop_tokens_eq w hf hn] at ht
      exact Or.inl (List.mem_singleton.mp ht)
    · obtain ⟨n, hn⟩ := Classical.not_forall.mp hn
      obtain rfl := Classical.not_not.mp hn
      obtain ⟨s', _, heq⟩ := pop_finalize hf o w
      rw [heq] at ht
      rcases List.mem_cons.mp ht with rfl | ht
      · exact Or.inl rfl
      · exact Or.inr (List.mem_singleton.mp ht)

end Interpreter

/-- A turn brings one more token into play at most, and that one is new. -/
theorem Process.turn_tokens {p : Process} {w : World} (hp : p.Plain w) :
    ∀ t ∈ (p.turn w).process.tokens, t ∈ p.tokens ∨ t = w.newToken.1 := by
  intro t ht
  match p, hp with
  | .next m n, _ =>
    rw [(turn_next m n w).1] at ht
    exact Or.inl ht
  | .counted m n, _ =>
    cases ho : w.isInterrupted m.token with
    | true =>
      simp only [turn, ho] at ht
      exact Or.inl ht
    | false =>
      rw [turn_counted ho, m.take_tokens w n] at ht
      exact Or.inl ht
  | .popping m o, _ => exact (m.pop_tokens w o t ht).imp List.mem_singleton.mpr id
  | .finalizing m o child, ⟨_, _, hc⟩ =>
    cases hx : child.exit? with
    | none =>
      rw [turn_finalizing m o hx] at ht
      rcases List.mem_cons.mp ht with rfl | ht
      · exact Or.inl List.mem_cons_self
      · exact (turn_tokens hc t ht).imp (List.mem_cons_of_mem _) id
    | some e =>
      obtain rfl := exit?_eq_some hx
      have ht' : t ∈ (m.finalized o e w).process.tokens := ht
      rw [m.finalized_tokens] at ht'
      exact Or.inl ht'
  | .awaiting m a, _ =>
    have ht' : t ∈ (m.pollAwaited a w).process.tokens := ht
    rw [m.pollAwaited_tokens] at ht'
    exact Or.inl ht'
  | .settled e, _ => exact absurd ht List.not_mem_nil

/-- A turn of an interpreter whose token only its own interrupt nodes trip: whatever trips a token of the process in it is such a
node. -/
theorem Process.turn_untripped {p : Process} {w : World} (hp : p.Plain w) (hw : w.Sound) (hu : p.Untripped w)
    (hs : p.SelfTripped w) : (p.turn w).process.Untripped (p.turn w).world := by
  have hplain := turn_plain hp hw
  have kept : ∀ t ∈ p.tokens, w.isInterrupted t = false → ¬ p.GivesUp t → (p.turn w).world.isInterrupted t = false :=
    fun t ht ho hg => Bool.eq_false_iff.mpr fun h => hg (hs t ht ho h)
  match p, hp with
  | .next m n, _ =>
    rw [(turn_next m n w).1]
    exact kept m.token List.mem_cons_self hu id
  | .counted m n, _ =>
    by_cases hi : n = .interrupt
    · subst hi
      rw [turn_counted hu]
      exact Or.inl rfl
    · have hkept := kept m.token List.mem_cons_self hu fun h => hi h.1
      rw [turn_counted hu] at hplain hkept ⊢
      refine untripped_of_token hplain (m.take_frames n w).1 fun t ht => ?_
      rw [m.take_tokens w n] at ht
      rwa [List.mem_singleton.mp ht]
  | .popping m o, ⟨hm, _⟩ =>
    have hkept : w.isInterrupted m.token = false → (m.pop o w).world.isInterrupted m.token = false :=
      fun ho => kept m.token List.mem_cons_self ho id
    show (m.pop o w).process.Untripped (m.pop o w).world
    cases hf : m.frames.frames with
    | nil =>
      rw [Interpreter.pop_nil hf]
      trivial
    | cons f fs =>
      by_cases hn : ∀ n, f ≠ .finalize n
      · rcases hu with rfl | ho
        · have hi := turn_interrupted (p := .popping m .interruption) trivial w
          have hfin := (Interpreter.pop_frames hf hn .interruption w).1
          exact untripped_of_interrupted hi hfin
        · refine untripped_of_token hplain (Interpreter.pop_frames hf hn o w).1 fun t ht => ?_
          rw [m.pop_tokens_eq w hf hn] at ht
          rw [List.mem_singleton.mp ht]
          exact hkept ho
      · obtain ⟨n, hn⟩ := Classical.not_forall.mp hn
        obtain rfl := Classical.not_not.mp hn
        obtain ⟨s', _, heq⟩ := Interpreter.pop_finalize hf o w
        rw [heq] at hkept ⊢
        refine ⟨hu.imp id hkept, fun ht => ?_, w.newToken_untripped⟩
        exact absurd (List.mem_singleton.mp ht) (Nat.ne_of_lt hm.token)
  | .finalizing m o child, ⟨hm, _, hc⟩ =>
    obtain ⟨ho, hown, hchild⟩ := hu
    cases hx : child.exit? with
    | none =>
      have hkept : w.isInterrupted m.token = false → (child.turn w).world.isInterrupted m.token = false := fun ho => by
        have := kept m.token List.mem_cons_self ho fun hg => hown (GivesUp.mem_tokens hg)
        rwa [turn_finalizing m o hx] at this
      have hs' : child.SelfTripped w := fun t ht ho hi => by
        have := hs t (List.mem_cons_of_mem _ ht) ho
        rw [turn_finalizing m o hx] at this
        exact this hi
      rw [turn_finalizing m o hx]
      refine ⟨ho.imp id hkept, fun ht => ?_, turn_untripped hc hw hchild hs'⟩
      rcases turn_tokens hc _ ht with ht | ht
      · exact hown ht
      · exact absurd ht (Nat.ne_of_lt hm.token)
    | some e =>
      obtain rfl := exit?_eq_some hx
      have hkept : w.isInterrupted m.token = false → (m.finalized o e w).world.isInterrupted m.token = false :=
        fun ho => kept m.token List.mem_cons_self ho id
      show (m.finalized o e w).process.Untripped (m.finalized o e w).world
      rcases ho with rfl | ho
      · have hi := turn_interrupted (p := .finalizing m .interruption (.settled e)) trivial w
        exact untripped_of_interrupted hi (m.finalized_frames .interruption e w).1
      · refine untripped_of_token hplain (m.finalized_frames o e w).1 fun t ht => ?_
        rw [m.finalized_tokens] at ht
        rw [List.mem_singleton.mp ht]
        exact hkept ho
  | .awaiting m a, _ =>
    have hkept := kept m.token List.mem_cons_self hu id
    refine untripped_of_token hplain (m.pollAwaited_waited a w).frames.1 fun t ht => ?_
    have ht' : t ∈ (m.pollAwaited a w).process.tokens := ht
    rw [m.pollAwaited_tokens] at ht'
    rwa [List.mem_singleton.mp ht']
  | .settled e, _ => trivial

/-- A run whose tokens nothing trips but interrupt nodes, each the token of its own interpreter, is undisturbed. -/
theorem Process.Run.undisturbed {R : World → World → Prop} (hR : Surroundings R)
    (hquiet : ∀ w v t, R w v → w.isInterrupted t = false → v.isInterrupted t = false) {p q : Process} {w v : World}
    {h : History} (run : Run R p w h q v) (hp : p.Plain w) (hw : w.Sound) (hu : p.Untripped w)
    (hs : ∀ y ∈ h, y.1.SelfTripped y.2) : h.Undisturbed := by
  induction run with
  | done => exact fun y hy => nomatch hy
  | @turn p q w v h _ _ ih =>
    have hrest := ih (turn_plain hp hw) ((turn_later p w).sound hw) (turn_untripped hp hw hu (hs _ List.mem_cons_self))
      fun y hy => hs y (List.mem_cons_of_mem _ hy)
    intro y hy
    rcases List.mem_cons.mp hy with rfl | hy
    · exact hu.undisturbed
    · exact hrest y hy
  | moved hm _ ih =>
    exact ih (hp.later (hR.later hm)) ((hR.later hm).sound hw) (hu.moved fun t => hquiet _ _ t hm) hs

end Interruptible
