import Interruptible.Proofs.Machine.Calls
import Interruptible.Proofs.Machine.Frames

/-!
# Interpreters of trees without groups

What holds of an interpreter all along if its tree has no groups (`Process.Plain`): it never joins a group, its pending frames
build trees without groups, its token is one of the world's, it carries failures of finalizers only while it unwinds an
interrupted run, and the operation that it awaits can be stopped by its token alone. Later worlds keep that
(`Process.Plain.later`), and so do turns (`Process.turn_plain`).
-/

namespace Interruptible

/-- What holds of what an interpreter carries along. -/
structure Interpreter.Plain (m : Interpreter) (w : World) : Prop where
  token : m.token < w.tokens.size
  frames : ∀ f ∈ m.frames.frames, f.Sequential

/-- What holds of an interpreter of a tree without groups. -/
def Process.Plain : Process → World → Prop
  | .next m n, w => m.Plain w ∧ m.suppressed = .empty ∧ n.Sequential
  | .counted m n, w => m.Plain w ∧ m.suppressed = .empty ∧ n.Sequential
  | .popping m o, w => m.Plain w ∧ (o ≠ .interruption → m.suppressed = .empty)
  | .finalizing m o child, w => m.Plain w ∧ (o ≠ .interruption → m.suppressed = .empty) ∧ child.Plain w
  | .awaiting m a, w => m.Plain w ∧ m.suppressed = .empty ∧ w.Watches m.token a.op
  | .joining _ _ _ _, _ => False
  | .settled _, _ => True

namespace Interpreter.Plain

variable {m : Interpreter} {w w' : World}

theorem later (h : m.Plain w) (hl : w.Later w') : m.Plain w' where
  token := Nat.lt_of_lt_of_le h.token hl.tokens
  frames := h.frames

/-- One more frame. -/
theorem push (h : m.Plain w) {f : Frame} (hf : f.Sequential) : (m.push f).Plain w where
  token := h.token
  frames g hg := by
    rcases List.mem_cons.mp hg with rfl | hg
    · exact hf
    · exact h.frames g hg

end Interpreter.Plain

/-- Whoever else changes the world, an interpreter of a tree without groups stays one. -/
theorem Process.Plain.later {p : Process} {w w' : World} (h : p.Plain w) (hl : w.Later w') : p.Plain w' := by
  match p, h with
  | .next m n, ⟨hm, hs, hn⟩ => exact ⟨hm.later hl, hs, hn⟩
  | .counted m n, ⟨hm, hs, hn⟩ => exact ⟨hm.later hl, hs, hn⟩
  | .popping m o, ⟨hm, hs⟩ => exact ⟨hm.later hl, hs⟩
  | .finalizing m o child, ⟨hm, hs, hc⟩ => exact ⟨hm.later hl, hs, Process.Plain.later hc hl⟩
  | .awaiting m a, ⟨hm, hs, hw⟩ => exact ⟨hm.later hl, hs, hl.watches hw⟩
  | .settled e, _ => trivial

/-- An interpreter that starts on a tree without groups. -/
theorem Process.start_plain {n : Node} (hn : n.Sequential) (env : Environment) {t : TokenId} (k : Nat) {w : World}
    (ht : t < w.tokens.size) : (Process.start n env t k).Plain w :=
  ⟨⟨ht, fun _ hf => nomatch hf⟩, rfl, hn⟩

namespace Interpreter

variable {m : Interpreter} {w : World}

theorem goOn_plain (hm : m.Plain w) (hs : m.suppressed = .empty) {a : Action Node} (ha : ∀ n, a.Gives n → n.Sequential) :
    (m.goOn a w).process.Plain (m.goOn a w).world :=
  ⟨hm.later (m.goOn_later a w), hs, guarded_sequential ha w⟩

theorem interrupted_plain (hm : m.Plain w) : (m.interrupted w).process.Plain (m.interrupted w).world :=
  ⟨hm.later (m.interrupted_later w), fun h => absurd rfl h⟩

/-- Awaiting starts with an operation that only the interpreter's token can stop. -/
theorem await_plain (hm : m.Plain w) (hs : m.suppressed = .empty) (hw : w.Sound) (factory : OperationId → Action Future)
    (onReject : Value → Action (Cause Value)) :
    (m.await factory onReject w).process.Plain (m.await factory onReject w).world := by
  have hm' := hm.later (m.await_later factory onReject w)
  simp only [await] at hm' ⊢
  split at hm'
  · exact ⟨hm', fun h => absurd rfl h⟩
  · rename_i stopper w' h
    split at hm'
    · rename_i future w'' h'
      have hrun := ((factory w.newOperation.1).run_later w').answer h'
      exact ⟨hm', hs, hrun.watches (World.watches_react hw h)⟩
    · exact ⟨hm', hs, .fail _⟩

/-- Taking a node of a tree without groups. -/
theorem take_plain (hm : m.Plain w) (hs : m.suppressed = .empty) (hw : w.Sound) {n : Node} (hn : n.Sequential) :
    (m.take n w).process.Plain (m.take n w).world := by
  have hrec := World.record_later w (.step n.kind m.frames.height)
  have hm₁ := hm.later hrec
  cases hn with
  | succeed p => exact ⟨hm₁, fun _ => hs⟩
  | succeedLazy thunk =>
    simp only [take]
    split
    · rename_i p w' h
      exact ⟨hm₁.later ((evaluate_later _ _).answer h), hs, .succeed p⟩
    · rename_i c w' h
      exact ⟨hm₁.later ((evaluate_later _ _).answer h), hs, .fail c⟩
  | fail c => exact ⟨hm₁, fun _ => hs⟩
  | interrupt => exact interrupted_plain (hm.later (((hrec.trans (World.record_later _ _)).trans (World.interrupt_later _ _))))
  | asks h => exact goOn_plain hm₁ hs (h m.env)
  | @give inner h env => exact ⟨⟨hm₁.token, (hm₁.push (f := .restore m.env) trivial).frames⟩, hs, h⟩
  | defer h => exact goOn_plain hm₁ hs h
  | liftPromise factory onReject => exact await_plain hm₁ hs (hrec.sound hw) factory onReject
  | @chain inner k h hk =>
    cases inner with
    | succeed p => exact goOn_plain hm₁ hs (hk p)
    | succeedLazy thunk =>
      simp only [take]
      split
      · rename_i p w' h
        exact goOn_plain (hm₁.later ((evaluate_later _ _).answer h)) hs (hk p)
      · rename_i c w' h
        exact ⟨hm₁.later ((evaluate_later _ _).answer h), hs, .fail c⟩
    | _ => exact ⟨hm₁.push (f := .apply k) hk, hs, h⟩
  | @matchCause inner recover k h hr hk => exact ⟨hm₁.push (f := .fold recover k) ⟨hr, hk⟩, hs, h⟩
  | @ensuring inner finalizer h hf => exact ⟨hm₁.push (f := .finalize finalizer) hf, hs, h⟩

/-- Popping a frame that builds trees without groups. -/
theorem pop_plain (hm : m.Plain w) {o : Outcome} (hs : o ≠ .interruption → m.suppressed = .empty) :
    (m.pop o w).process.Plain (m.pop o w).world := by
  cases hf : m.frames.frames with
  | nil =>
    rw [pop_nil hf]
    trivial
  | cons f fs =>
    obtain ⟨s', hpop, rfl⟩ := FrameStack.pop?_eq_some hf
    have hseq : f.Sequential := hm.frames f (by rw [hf]; exact List.mem_cons_self)
    have hrest : ∀ {env : Environment}, Interpreter.Plain { m with frames := s', env } w := fun {_} =>
      ⟨hm.token, fun g hg => hm.frames g (by rw [hf]; exact List.mem_cons_of_mem _ hg)⟩
    unfold pop
    rw [hpop]
    cases f with
    | finalize n =>
      exact ⟨hrest.later (World.newToken_later w), hs, Process.start_plain hseq _ _ w.newToken_lt⟩
    | restore env => exact ⟨hrest, hs⟩
    | apply k =>
      cases o with
      | value p => exact goOn_plain hrest (hs (by simp)) (hseq p)
      | failure c => exact ⟨hrest, hs⟩
      | interruption => exact ⟨hrest, hs⟩
    | fold recover k =>
      cases o with
      | value p => exact goOn_plain hrest (hs (by simp)) (hseq.2 p)
      | failure c => exact goOn_plain hrest (hs (by simp)) (hseq.1 c)
      | interruption => exact ⟨hrest, hs⟩

theorem finalized_plain (hm : m.Plain w) {o : Outcome} (hs : o ≠ .interruption → m.suppressed = .empty)
    (e : Exit Value Payload) : (m.finalized o e w).process.Plain (m.finalized o e w).world := by
  have hm' := hm.later (m.finalized_later o e w)
  cases e with
  | success p => exact ⟨hm', hs⟩
  | failure fc =>
    cases o with
    | value p => exact ⟨hm', hs (by simp), .fail fc⟩
    | failure c => exact ⟨hm', fun _ => hs (by simp)⟩
    | interruption => exact ⟨⟨hm'.token, hm'.frames⟩, fun h => absurd rfl h⟩

theorem pollAwaited_plain (hm : m.Plain w) (hs : m.suppressed = .empty) {a : Awaited} (hw : w.Watches m.token a.op) :
    (m.pollAwaited a w).process.Plain (m.pollAwaited a w).world := by
  have hl := m.pollAwaited_later a w
  have hm' := hm.later hl
  have hw' := hl.watches hw
  cases hf : w.isFired a.op with
  | true =>
    simp only [pollAwaited, hf] at hm' ⊢
    exact ⟨hm', fun h => absurd rfl h⟩
  | false =>
    rcases hp : a.future.poll a.op (w.attend a.op) with ⟨rest | (x | p) | p, w'⟩ <;>
      simp only [pollAwaited, hf, hp] at hm' hw' ⊢
    · exact ⟨hm', hs, hw'⟩
    · exact ⟨hm', hs, guarded_sequential (fun n hn => Action.gives_fail hn) _⟩
    · exact ⟨hm', hs, .succeed p⟩
    · exact ⟨hm', hs, .fail _⟩

end Interpreter

/-- A turn of an interpreter of a tree without groups. -/
theorem Process.turn_plain {p : Process} {w : World} (hp : p.Plain w) (hw : w.Sound) :
    (p.turn w).process.Plain (p.turn w).world := by
  match p, hp with
  | .next m n, ⟨hm, hs, hn⟩ =>
    obtain ⟨hturn, _⟩ := turn_next m n w
    have hm' := hm.later (turn_later (.next m n) w)
    rw [hturn]
    exact ⟨⟨hm'.token, hm'.frames⟩, hs, hn⟩
  | .counted m n, ⟨hm, hs, hn⟩ =>
    cases ho : w.isInterrupted m.token with
    | true =>
      simp only [turn, ho]
      exact Interpreter.interrupted_plain hm
    | false =>
      rw [turn_counted ho]
      exact Interpreter.take_plain hm hs hw hn
  | .popping m o, ⟨hm, hs⟩ => exact Interpreter.pop_plain hm hs
  | .finalizing m o child, ⟨hm, hs, hc⟩ =>
    cases hx : child.exit? with
    | none =>
      have hchild := turn_plain hc hw
      rw [turn_finalizing m o hx]
      exact ⟨hm.later (child.turn_later w), hs, hchild⟩
    | some e =>
      obtain rfl := exit?_eq_some hx
      exact Interpreter.finalized_plain hm hs e
  | .awaiting m a, ⟨hm, hs, hwatch⟩ => exact Interpreter.pollAwaited_plain hm hs hwatch
  | .settled e, _ => trivial

end Interruptible
