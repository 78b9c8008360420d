import Interruptible.Effect.Combinators
import Interruptible.Proofs.World.Alike
import Mathlib.Data.List.Forall2

/-!
# Effects whose chains are grouped in another way

Two trees that differ in how their chains are put together (`Node.Regroups`), at as many places and as deep inside as one likes,
also in what their callbacks build: `m.chain(a => f(a).chain(g))` on one side is `m.chain(f).chain(g)` on the other, an effect
that is built when it is its turn is a continuation that is applied to a value, and, if so wanted, the second tree goes on after
some of its effects with continuations that hand back what they are given. Callbacks make the same requests on both sides and
build trees that are related in turn (`Action.Agrees`).
-/

namespace Interruptible

/-- Computations that make the same requests of the world and come to results that are related, or to the same panic. -/
inductive Action.Agrees {α β : Type} (Q : α → β → Prop) : Action α → Action β → Prop
  | pure {a : α} {b : β} (h : Q a b) : Agrees Q (.pure a) (.pure b)
  | panic (p : Panic) : Agrees Q (.panic p) (.panic p)
  | ask (c : Command) {next : c.Reply → Action α} {next' : c.Reply → Action β} (h : ∀ r, Agrees Q (next r) (next' r)) :
    Agrees Q (.ask c next) (.ask c next')
  | subscribe (t : TokenId) (l : Listener) {next : Option Subscription → Action α} {next' : Option Subscription → Action β}
      (h : ∀ s, Agrees Q (next s) (next' s)) : Agrees Q (.subscribe t l next) (.subscribe t l next')
  | register (op : OperationId) (l : Listener) {next : Action α} {next' : Action β} (h : Agrees Q next next') :
    Agrees Q (.register op l next) (.register op l next')

namespace Node

/-- The continuation that hands back what it is given. -/
def handBack : Payload → Action Node := fun p => .pure (.succeed p)

/-- Two continuations as one: what the first one builds, gone on with by the second. -/
def joint (f g : Payload → Action Node) : Payload → Action Node := fun p => do return (← f p).chain g

/-- A tree, and one with its chains grouped to the left. If `idle` says so, the second one also goes on after some of its effects
with continuations that hand back what they are given. -/
inductive Regroups (idle : Bool) : Node → Node → Prop
  | succeed (p : Payload) : Regroups idle (.succeed p) (.succeed p)
  | succeedLazy (thunk : Action (Except (Cause Value) Payload)) : Regroups idle (.succeedLazy thunk) (.succeedLazy thunk)
  | fail (c : Cause Value) : Regroups idle (.fail c) (.fail c)
  | interrupt : Regroups idle .interrupt .interrupt
  | asks {read read' : Environment → Action Node} (h : ∀ env, (read env).Agrees (Regroups idle) (read' env)) :
    Regroups idle (.asks read) (.asks read')
  | give {n n' : Node} (h : Regroups idle n n') (env : Environment) : Regroups idle (.give n env) (.give n' env)
  | all {ns ns' : List Node} (h : List.Forall₂ (Regroups idle) ns ns') : Regroups idle (.all ns) (.all ns')
  | defer {a a' : Action Node} (h : a.Agrees (Regroups idle) a') : Regroups idle (.defer a) (.defer a')
  | liftPromise (factory : OperationId → Action Future) (onReject : Value → Action (Cause Value)) :
    Regroups idle (.liftPromise factory onReject) (.liftPromise factory onReject)
  | chain {n n' : Node} {k k' : Payload → Action Node} (h : Regroups idle n n')
      (hk : ∀ p, (k p).Agrees (Regroups idle) (k' p)) : Regroups idle (.chain n k) (.chain n' k')
  | matchCause {n n' : Node} {r r' : Cause Value → Action Node} {k k' : Payload → Action Node} (h : Regroups idle n n')
      (hr : ∀ c, (r c).Agrees (Regroups idle) (r' c)) (hk : ∀ p, (k p).Agrees (Regroups idle) (k' p)) :
    Regroups idle (.matchCause n r k) (.matchCause n' r' k')
  | ensuring {n n' m m' : Node} (h : Regroups idle n n') (hm : Regroups idle m m') :
    Regroups idle (.ensuring n m) (.ensuring n' m')
  /-- Chains are grouped to the left. -/
  | assoc {n n' : Node} {f f' g g' : Payload → Action Node} (h : Regroups idle n n')
      (hf : ∀ p, (f p).Agrees (Regroups idle) (f' p)) (hg : ∀ p, (g p).Agrees (Regroups idle) (g' p)) :
    Regroups idle (.chain n (joint f g)) (.chain (.chain n' f') g')
  /-- A continuation that is applied to a value builds the effect when it is its turn. -/
  | applied {a : Action Node} {f' : Payload → Action Node} (p : Payload) (h : a.Agrees (Regroups idle) (f' p)) :
    Regroups idle (.defer a) (.chain (.succeed p) f')
  /-- What an effect succeeds with is handed back. -/
  | handed {n n' : Node} (hi : idle = true) (h : Regroups idle n n') : Regroups idle n (.chain n' handBack)

end Node

namespace Action.Agrees

variable {α β : Type} {Q : α → β → Prop} {a : Action α} {b : Action β}

theorem mono {Q' : α → β → Prop} (h : a.Agrees Q b) (hQ : ∀ x y, Q x y → Q' x y) : a.Agrees Q' b := by
  induction h with
  | pure h => exact .pure (hQ _ _ h)
  | panic p => exact .panic p
  | ask c _ ih => exact .ask c ih
  | subscribe t l _ ih => exact .subscribe t l ih
  | register op l _ ih => exact .register op l ih

/-- Something is made of the result of the first computation. -/
theorem map_left {γ : Type} {Q' : γ → β → Prop} (h : a.Agrees Q b) {f : α → γ} (hQ : ∀ x y, Q x y → Q' (f x) y) :
    (a.bind fun x => .pure (f x)).Agrees Q' b := by
  induction h with
  | pure h => exact .pure (hQ _ _ h)
  | panic p => exact .panic p
  | ask c _ ih => exact .ask c ih
  | subscribe t l _ ih => exact .subscribe t l ih
  | register op l _ ih => exact .register op l ih

/-- In worlds that are alike, both computations come to results that are related or to the same panic, and leave worlds that are
alike. -/
theorem run (h : a.Agrees Q b) {w v : World} (hw : w.Alike v) :
    (a.run w).2.Alike (b.run v).2 ∧
      ((∃ x y, (a.run w).1 = .ok x ∧ (b.run v).1 = .ok y ∧ Q x y) ∨ ∃ p, (a.run w).1 = .error p ∧ (b.run v).1 = .error p) := by
  induction h generalizing w v with
  | pure h => exact ⟨hw, .inl ⟨_, _, rfl, rfl, h⟩⟩
  | panic p => exact ⟨hw, .inr ⟨p, rfl, rfl⟩⟩
  | ask c _ ih =>
    obtain ⟨hr, hw⟩ := Command.run_alike World.interrupt_blind hw c
    simp only [Action.run, hr]
    exact ih _ hw
  | subscribe t l _ ih =>
    obtain ⟨hr, hw⟩ := World.react_alike hw t (.call l)
    simp only [Action.run, hr]
    exact ih _ hw
  | register op l _ ih =>
    have ha := World.addHook_alike hw op l
    simp only [Action.run]
    rcases hx : w.addHook op l with ⟨_ | _, w'⟩ <;> rcases hy : v.addHook op l with ⟨_ | _, v'⟩ <;> rw [hx, hy] at ha
    · exact ih (l.invoke_alike World.interrupt_blind ha.2)
    · exact Bool.noConfusion ha.1
    · exact Bool.noConfusion ha.1
    · exact ih ha.2

end Action.Agrees

section

variable {idle : Bool}

mutual
theorem Node.Regroups.refl : (n : Node) → n.Regroups idle n
  | .succeed p => .succeed p
  | .succeedLazy thunk => .succeedLazy thunk
  | .fail c => .fail c
  | .interrupt => .interrupt
  | .asks read => .asks fun env => Action.agrees_refl (read env)
  | .give inner env => .give (Node.Regroups.refl inner) env
  | .all children => .all (Node.regroups_refl children)
  | .defer factory => .defer (Action.agrees_refl factory)
  | .liftPromise factory onReject => .liftPromise factory onReject
  | .chain inner k => .chain (Node.Regroups.refl inner) fun p => Action.agrees_refl (k p)
  | .matchCause inner recover k =>
    .matchCause (Node.Regroups.refl inner) (fun c => Action.agrees_refl (recover c)) fun p => Action.agrees_refl (k p)
  | .ensuring inner finalizer => .ensuring (Node.Regroups.refl inner) (Node.Regroups.refl finalizer)

/-- A callback makes the same requests as it does itself. -/
theorem Action.agrees_refl : (a : Action Node) → a.Agrees (Node.Regroups idle) a
  | .pure n => .pure (Node.Regroups.refl n)
  | .panic p => .panic p
  | .ask c next => .ask c fun r => Action.agrees_refl (next r)
  | .subscribe t l next => .subscribe t l fun s => Action.agrees_refl (next s)
  | .register op l next => .register op l (Action.agrees_refl next)

/-- The children of a group. -/
theorem Node.regroups_refl : (ns : List Node) → List.Forall₂ (Node.Regroups idle) ns ns
  | [] => .nil
  | n :: ns => .cons (Node.Regroups.refl n) (Node.regroups_refl ns)
end

/-! ## The laws -/

/-- Chains are associative. -/
theorem Node.regroups_assoc (m : Node) (f g : Payload → Action Node) :
    (m.chain fun p => do return (← f p).chain g).Regroups idle ((m.chain f).chain g) :=
  .assoc (.refl m) (fun p => Action.agrees_refl (f p)) fun p => Action.agrees_refl (g p)

/-- To go on after a value is to build what comes next when it is its turn. -/
theorem Node.regroups_applied (p : Payload) (f : Payload → Action Node) :
    (Node.defer (f p)).Regroups idle ((Node.succeed p).chain f) :=
  .applied p (Action.agrees_refl (f p))

/-- To go on by handing back the value is not to go on. -/
theorem Node.regroups_handed (m : Node) : m.Regroups true (m.chain fun p => return .succeed p) :=
  .handed rfl (.refl m)

/-- To leave the value as it is is not to go on either. -/
theorem Node.regroups_map (m : Node) : m.Regroups true (m.map fun p => return p) :=
  .handed rfl (.refl m)

end

end Interruptible
