import Interruptible.Proofs.Machine.Execution
import Interruptible.Proofs.Machine.SelfInterruption
import Interruptible.Proofs.Machine.Unwinding

/-!
# The machine and the meaning of trees agree

An interpreter that works on a tree without groups, and that nobody disturbs, settles with an exit after having called certain
callbacks in a certain order if and only if that is what the tree evaluates to (`settles_iff_evaluates`). The frames, the
instructions that are counted, the yields and the short way that a chain takes past its frame are not to be seen from outside.
Among the runs that nobody disturbs are those whose tokens nothing trips but interrupt nodes of the tree
(`Process.Run.evaluates_of_selfTripped`).
-/

namespace Interruptible

section

variable {R : World → World → Prop} {n : Node} {env : Environment} {t : TokenId} {k : Nat} {w w' : World} {h : History}
  {x : Exit Value Payload}

/-- What a machine settles with, after calling some callbacks, its tree evaluates to. -/
theorem Process.Run.evaluates (hR : Surroundings R) (run : Process.Run R (.start n env t k) w h (.settled x) w')
    (hn : n.Sequential) (ht : t < w.tokens.size) (hw : w.Sound) (hu : h.Undisturbed) :
    ∃ r v, Evaluates R t env n w h.calls r v ∧ R v w' ∧ r.exit = x := by
  have hyields := run.yields hR (Process.start_plain hn env k ht) hw hu
  generalize h.calls = L at hyields ⊢
  rw [Process.start] at hyields
  cases hyields with
  | next h₁ h₂ =>
    cases h₂ with
    | done hm =>
      rw [List.append_nil]
      exact ⟨_, _, h₁, hm, rfl⟩

/-- A machine whose token nothing trips but interrupt nodes of its tree settles with what the tree evaluates to. -/
theorem Process.Run.evaluates_of_selfTripped (hR : Surroundings R)
    (hquiet : ∀ w v t, R w v → w.isInterrupted t = false → v.isInterrupted t = false)
    (run : Process.Run R (.start n env t k) w h (.settled x) w') (hn : n.Sequential) (ht : t < w.tokens.size) (hw : w.Sound)
    (ho : w.isInterrupted t = false) (hs : ∀ y ∈ h, y.1.SelfTripped y.2) :
    ∃ r v, Evaluates R t env n w h.calls r v ∧ R v w' ∧ r.exit = x :=
  run.evaluates hR hn ht hw (run.undisturbed hR hquiet (Process.start_plain hn env k ht) hw ho hs)

end

/-- The machine settles with what the tree evaluates to, and with nothing else, having called the same callbacks in the same
order. -/
theorem settles_iff_evaluates {R : World → World → Prop} (hR : Surroundings R) {n : Node} (hn : n.Sequential)
    (env : Environment) {t : TokenId} (k : Nat) {w w' : World} (ht : t < w.tokens.size) (hw : w.Sound)
    (L : List Call) (x : Exit Value Payload) :
    (∃ h, Process.Run R (.start n env t k) w h (.settled x) w' ∧ h.Undisturbed ∧ h.calls = L) ↔
      ∃ r v, Evaluates R t env n w L r v ∧ R v w' ∧ r.exit = x := by
  constructor
  · rintro ⟨h, run, hu, rfl⟩
    exact run.evaluates hR hn ht hw hu
  · rintro ⟨r, v, h, hm, rfl⟩
    have hready : Interpreter.Ready { env, token := t, interval := k } t env w := ⟨rfl, rfl, rfl, ht, hw⟩
    exact ((h.comes hR hready).settles rfl).after hm

/-- A chain that goes on to give up the run, past a match and with a finalizer that fails. -/
def givingUp : Payload → Action Node := fun _ =>
  return .ensuring (.matchCause .interrupt (fun c => return .fail c) fun p => return .succeed p) (.fail (.fail .null))

theorem settles_iff_evaluates_givingUp :
    ∃ h w', Process.Run World.Alike (.start (.chain (.succeed .unit) givingUp) (.plain .null) 0 1) (World.newToken default).2 h
        (.settled (.failure (.then .interrupt (.fail .null)))) w' ∧
      h.Undisturbed ∧ h.calls = [.apply givingUp .unit] := by
  have hgives : ∀ {n n' : Node}, (return n : Action Node).Gives n' → n' = n := fun h => by
    obtain ⟨w, hw⟩ := h
    exact (Except.ok.inj hw).symm
  have hn : (Node.chain (.succeed .unit) givingUp).Sequential := by
    refine .chain (.succeed _) fun _ n h => ?_
    rw [hgives h]
    refine .ensuring (.matchCause .interrupt (fun c n h => ?_) fun p n h => ?_) (.fail _)
    · rw [hgives h]
      exact .fail c
    · rw [hgives h]
      exact .succeed p
  have hw : (World.newToken default).2.Sound := (World.newToken_later default).sound (World.sound_of_no_tokens rfl)
  have hR := surroundings_alike
  have hfinalizer : Evaluates World.Alike (((World.newToken default).2.interrupt 0).newToken).1 (.plain .null)
      (.fail (.fail .null)) (((World.newToken default).2.interrupt 0).newToken).2 [] (.failure (.fail .null))
      (((World.newToken default).2.interrupt 0).newToken).2 := .fail rfl
  have heval : Evaluates World.Alike 0 (.plain .null) (.chain (.succeed .unit) givingUp) (World.newToken default).2
      [.apply givingUp .unit] (.interrupted (.fail .null)) (((World.newToken default).2.interrupt 0).newToken).2 :=
    .chainValue (.succeed rfl) rfl
      (.ensuring (.matchInterrupted (.interrupt rfl)) (hR.refl _) hfinalizer (hR.refl _) fun h => nomatch h)
  obtain ⟨h, run, hu, hcalls⟩ :=
    (settles_iff_evaluates hR hn (.plain .null) 1 Nat.zero_lt_one hw [.apply givingUp .unit] _).mpr
      ⟨_, _, heval, hR.refl _, rfl⟩
  exact ⟨h, _, run, hu, hcalls⟩

end Interruptible
