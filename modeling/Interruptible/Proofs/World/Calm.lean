import Interruptible.Proofs.World.Events

/-!
# Calm

From one world to another it has been calm if nobody has tripped a token and nobody has stopped a host operation in between
(`World.Calm`). Most of what the runtime does on its own account keeps calm: it makes tokens and operations, registers reactions
on tokens that have not been tripped, removes them, wakes tasks, and lets tasks wait. What is left are trips, and listeners,
which may call anything.
-/

namespace Interruptible

namespace World

/-- A token that is there and has not been tripped. -/
def Untripped (w : World) (t : TokenId) : Prop := ∃ token, w.tokens[t]? = some token ∧ token.interrupted = false

/-- An operation that has begun and has not been stopped. -/
def Unstopped (w : World) (op : OperationId) : Prop := ∃ operation, w.operations[op]? = some operation ∧ operation.fired = false

/-- Nothing that was there before has been tripped or stopped. -/
structure Calm (w w' : World) : Prop where
  token : ∀ t, w.Untripped t → w'.Untripped t
  operation : ∀ op, w.Unstopped op → w'.Unstopped op

variable {w w' : World} {t : TokenId} {op : OperationId}

theorem Untripped.isInterrupted_eq_false (h : w.Untripped t) : w.isInterrupted t = false := by
  obtain ⟨token, ht, ho⟩ := h
  rw [isInterrupted, ht, Option.map_some, Option.getD_some, ho]

theorem Unstopped.isFired_eq_false (h : w.Unstopped op) : w.isFired op = false := by
  obtain ⟨operation, hop, hf⟩ := h
  rw [isFired, hop, Option.map_some, Option.getD_some, hf]

namespace Calm

theorem refl (w : World) : Calm w w := ⟨fun _ => id, fun _ => id⟩

theorem trans {w₁ w₂ w₃ : World} (h : Calm w₁ w₂) (h' : Calm w₂ w₃) : Calm w₁ w₃ :=
  ⟨fun t ht => h'.token t (h.token t ht), fun op hop => h'.operation op (h.operation op hop)⟩

/-- Where tokens and operations stay as they are it is calm. -/
theorem of_steady (h : Steady w w') : Calm w w' where
  token t ht := by rwa [Untripped, h.tokens]
  operation op hop := by rwa [Unstopped, h.operations]

/-- A token is changed, but not tripped. -/
theorem modifyToken (w : World) (t : TokenId) {f : Token → Token} (hf : ∀ x, (f x).interrupted = x.interrupted) :
    Calm w (w.modifyToken t f) where
  token s hs := by
    obtain ⟨token, ht, ho⟩ := hs
    simp only [Untripped, World.modifyToken, Array.getElem?_modify, ht]
    split
    · exact ⟨f token, rfl, (hf token).trans ho⟩
    · exact ⟨token, rfl, ho⟩
  operation _ hop := hop

/-- An operation is changed, but not stopped. -/
theorem modifyOperation (w : World) (op : OperationId) {f : Operation → Operation} (hf : ∀ x, (f x).fired = x.fired) :
    Calm w (w.modifyOperation op f) where
  token _ ht := ht
  operation o ho := by
    obtain ⟨operation, hop, hfired⟩ := ho
    simp only [Unstopped, World.modifyOperation, Array.getElem?_modify, hop]
    split
    · exact ⟨f operation, rfl, (hf operation).trans hfired⟩
    · exact ⟨operation, rfl, hfired⟩

/-- Dropping a subscription trips and stops nothing. -/
theorem unsubscribe (w : World) (s : Subscription) : Calm w (w.unsubscribe s) := modifyToken w s.token fun _ => rfl

theorem attend (w : World) (op : OperationId) : Calm w (w.attend op) := modifyOperation w op fun _ => rfl

theorem forget (w : World) (op : OperationId) : Calm w (w.forget op) := of_steady ⟨rfl, rfl⟩

/-- The passage of time trips and stops nothing. -/
theorem advanceTo (w : World) (time : Nat) : Calm w (w.advanceTo time) := by
  have hrest : Steady w { w with now := time, timers := w.timers.filter (time < ·.deadline) } := ⟨rfl, rfl⟩
  exact of_steady (hrest.trans (.foldl_wake Timer.task _ _))

/-- A new token has not been tripped. -/
theorem newToken (w : World) : Calm w w.newToken.2 ∧ w.newToken.2.Untripped w.newToken.1 := by
  constructor
  · refine ⟨?_, fun _ hop => hop⟩
    rintro t ⟨token, ht, ho⟩
    have hne : t ≠ w.tokens.size := Nat.ne_of_lt (Array.getElem?_eq_some_iff.mp ht).1
    refine ⟨token, ?_, ho⟩
    simp [World.newToken, Array.getElem?_push, hne, ht]
  · exact ⟨{}, Array.getElem?_push_size, rfl⟩

/-- A new operation has not been stopped. -/
theorem newOperation (w : World) : Calm w w.newOperation.2 ∧ w.newOperation.2.Unstopped w.newOperation.1 := by
  constructor
  · refine ⟨fun _ ht => ht, ?_⟩
    rintro op ⟨operation, hop, hf⟩
    have hne : op ≠ w.operations.size := Nat.ne_of_lt (Array.getElem?_eq_some_iff.mp hop).1
    refine ⟨operation, ?_, hf⟩
    simp [World.newOperation, Array.getElem?_push, hne, hop]
  · exact ⟨{}, Array.getElem?_push_size, rfl⟩

/-- A reaction is registered on a token that has not been tripped, and does not run. -/
theorem react (ht : w.Untripped t) (r : Reaction) : ∃ s w', w.react t r = (some s, w') ∧ Calm w w' := by
  obtain ⟨token, htoken, -⟩ := id ht
  obtain ⟨s, w', hr⟩ := react_eq_some (Array.getElem?_eq_some_iff.mp htoken).1 ht.isInterrupted_eq_false r
  refine ⟨s, w', hr, ?_⟩
  rw [of_react_eq_some hr]
  exact modifyToken w t fun _ => rfl

end Calm

end World

end Interruptible
