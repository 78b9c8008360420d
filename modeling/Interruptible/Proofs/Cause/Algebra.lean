import Interruptible.Proofs.Cause.Queries

/-!
# The algebra of causes

Composing causes keeps everything that they hold, in order, and an operand without content leaves the other one as it is, tree
for tree (`Cause.Composed`). Mapping a cause calls a function with each of its failures from left to right, and changes nothing
but these (`Cause.Corresponds`). The two go together: whether a cause is empty does not depend on what its failures are
(`Cause.Corresponds.isEmpty_eq`), so mapping a composition is composing what has been mapped. The functions may keep a state
from call to call (`causes_composed_and_mapped`).
-/

namespace Interruptible

namespace Cause

variable {ε δ γ σ τ : Type}

/-! ## Composition -/

/-- How two causes are composed. -/
inductive Order where
  | sequence
  | parallel

/-- The composition of two causes. -/
def Order.compose : Order → Cause ε → Cause ε → Cause ε
  | .sequence => andThen
  | .parallel => beside

/-- What holds two causes that are composed. -/
def Order.node : Order → Cause ε → Cause ε → Cause ε
  | .sequence => .then
  | .parallel => .both

theorem Order.compose_eq (o : Order) (l r : Cause ε) :
    o.compose l r = if l.isEmpty then r else if r.isEmpty then l else o.node l r := by
  cases o <;> rfl

/-- What two causes come to when they are composed. -/
structure Composed (o : Order) (l r c : Cause ε) : Prop where
  failures : c.failures = l.failures ++ r.failures
  defects : c.defects = l.defects ++ r.defects
  isInterrupted : c.isInterrupted = (l.isInterrupted || r.isInterrupted)
  isEmpty : c.isEmpty = (l.isEmpty && r.isEmpty)
  /-- Nothing comes before the second operand. -/
  second : l.Hollow → c = r
  /-- Nothing comes after the first operand. -/
  first : ¬ l.Hollow → r.Hollow → c = l
  both : ¬ l.Hollow → ¬ r.Hollow → c = o.node l r

/-- The first operand holds nothing. -/
theorem composed_second (o : Order) {l : Cause ε} (hl : l.isEmpty = true) (r : Cause ε) : Composed o l r r := by
  have hollow := isEmpty_iff_hollow.mp hl
  obtain ⟨hf, hd, hi⟩ := isEmpty_iff_nothing.mp hl
  exact
    { failures := by rw [hf, List.nil_append]
      defects := by rw [hd, List.nil_append]
      isInterrupted := by rw [hi, Bool.false_or]
      isEmpty := by rw [hl, Bool.true_and]
      second := fun _ => rfl
      first := fun h => absurd hollow h
      both := fun h => absurd hollow h }

/-- Only the second operand holds nothing. -/
theorem composed_first (o : Order) {l r : Cause ε} (hl : ¬ l.Hollow) (hr : r.isEmpty = true) : Composed o l r l := by
  have hollow := isEmpty_iff_hollow.mp hr
  obtain ⟨hf, hd, hi⟩ := isEmpty_iff_nothing.mp hr
  exact
    { failures := by rw [hf, List.append_nil]
      defects := by rw [hd, List.append_nil]
      isInterrupted := by rw [hi, Bool.or_false]
      isEmpty := by rw [hr, Bool.and_true]
      second := fun h => absurd h hl
      first := fun _ _ => rfl
      both := fun _ h => absurd hollow h }

/-- Both operands hold something. -/
theorem composed_both (o : Order) {l r : Cause ε} (hl : ¬ l.Hollow) (hr : ¬ r.Hollow) : Composed o l r (o.node l r) where
  failures := by cases o <;> simp [Order.node]
  defects := by cases o <;> simp [Order.node]
  isInterrupted := by cases o <;> rfl
  isEmpty := by cases o <;> rfl
  second h := absurd h hl
  first _ h := absurd h hr
  both _ _ := rfl

theorem compose_composed (o : Order) (l r : Cause ε) : Composed o l r (o.compose l r) := by
  rw [o.compose_eq]
  split
  · rename_i hl
    exact composed_second o hl r
  · rename_i hl
    rw [isEmpty_iff_hollow] at hl
    split
    · rename_i hr
      exact composed_first o hl hr
    · rename_i hr
      rw [isEmpty_iff_hollow] at hr
      exact composed_both o hl hr

/-! ## Mapping -/

/-- Two causes of one shape: the failures of one are related to those in the same places of the other, and the other leaves are
the same. -/
inductive Corresponds (R : ε → δ → Prop) : Cause ε → Cause δ → Prop where
  | empty : Corresponds R .empty .empty
  | fail {e : ε} {d : δ} (h : R e d) : Corresponds R (.fail e) (.fail d)
  | die (d : Defect) : Corresponds R (.die d) (.die d)
  | interrupt : Corresponds R .interrupt .interrupt
  | then {l r : Cause ε} {l' r' : Cause δ} (hl : Corresponds R l l') (hr : Corresponds R r r') :
    Corresponds R (.then l r) (.then l' r')
  | both {l r : Cause ε} {l' r' : Cause δ} (hl : Corresponds R l l') (hr : Corresponds R r r') :
    Corresponds R (.both l r) (.both l' r')

/-- Whether a cause is empty does not depend on what its failures are. -/
theorem Corresponds.isEmpty_eq {R : ε → δ → Prop} {c : Cause ε} {c' : Cause δ} (h : Corresponds R c c') :
    c'.isEmpty = c.isEmpty := by
  induction h with
  | empty | fail | die | interrupt => rfl
  | «then» _ _ ihl ihr | both _ _ ihl ihr => simp only [isEmpty, ihl, ihr]

theorem map_corresponds (p : ε → δ) (c : Cause ε) : Corresponds (fun e d => d = p e) c (c.map p) := by
  induction c with
  | empty => exact .empty
  | fail e => exact .fail rfl
  | die d => exact .die d
  | interrupt => exact .interrupt
  | «then» l r ihl ihr => exact .then ihl ihr
  | both l r ihl ihr => exact .both ihl ihr

theorem map_map (p : ε → δ) (q : δ → γ) (c : Cause ε) : (c.map p).map q = c.map (q ∘ p) := by
  induction c with
  | empty | fail | die | interrupt => rfl
  | «then» l r ihl ihr | both l r ihl ihr => simp only [map, ihl, ihr]

/-- Mapping failures goes into both sides of a composition. -/
theorem map_compose (o : Order) (p : ε → δ) (l r : Cause ε) :
    (o.compose l r).map p = o.compose (l.map p) (r.map p) := by
  have hl := (map_corresponds p l).isEmpty_eq
  have hr := (map_corresponds p r).isEmpty_eq
  rw [o.compose_eq, o.compose_eq, hl, hr]
  split
  · rfl
  · split
    · rfl
    · cases o <;> rfl

/-! ## Mapping by a function that keeps a state -/

/-- Mapping failures with a pure function is mapping them. -/
theorem mapM_pure (p : ε → δ) (c : Cause ε) : c.mapM (m := StateM σ) (fun e => pure (p e)) = pure (c.map p) := by
  induction c with
  | empty | fail | die | interrupt => rfl
  | «then» l r ihl ihr | both l r ihl ihr => simp only [mapM, map, ihl, ihr, pure_bind]

/-- Whatever the function does, the result has the shape and the other leaves of the cause. -/
theorem mapM_corresponds (f : ε → StateM σ δ) (c : Cause ε) (s : σ) :
    Corresponds (fun _ _ => True) c ((c.mapM f).run s).1 := by
  induction c generalizing s with
  | empty => exact .empty
  | fail e => exact .fail trivial
  | die d => exact .die d
  | interrupt => exact .interrupt
  | «then» l r ihl ihr => exact .then (ihl s) (ihr _)
  | both l r ihl ihr => exact .both (ihl s) (ihr _)

/-- The function is called with the failures from left to right, as it would be with those of a list. -/
theorem failures_mapM {m : Type → Type} [Monad m] [LawfulMonad m] (f : ε → m δ) (c : Cause ε) :
    failures <$> c.mapM f = c.failures.mapM f := by
  induction c with
  | empty | die | interrupt => exact (map_pure _ _).trans List.mapM_nil.symm
  | fail e =>
    have hone : (Cause.fail e).failures = [e] := rfl
    rw [hone, List.mapM_cons, List.mapM_nil]
    simp [mapM, failures, leaves, failure?]
  | «then» l r ihl ihr | both l r ihl ihr => simp [mapM, ← ihl, ← ihr, List.mapM_append]

/-- The function is not called if there is nothing in the cause. -/
theorem mapM_of_isEmpty (f : ε → StateM σ δ) {c : Cause ε} (hc : c.isEmpty = true) (s : σ) : ((c.mapM f).run s).2 = s := by
  induction c generalizing s with
  | empty => rfl
  | fail | die | interrupt => nomatch hc
  | «then» l r ihl ihr | both l r ihl ihr =>
    rw [isEmpty, Bool.and_eq_true] at hc
    calc ((r.mapM f).run ((l.mapM f).run s).2).2
      _ = ((l.mapM f).run s).2 := ihr hc.2 _
      _ = s := ihl hc.1 s

/-- To map a composition is to compose what comes of mapping the operands, the first one first. -/
theorem mapM_compose (o : Order) (f : ε → StateM σ δ) (l r : Cause ε) :
    (o.compose l r).mapM f = do
      let l' ← l.mapM f
      let r' ← r.mapM f
      return o.compose l' r' := by
  refine funext fun s => ?_
  have hl := (mapM_corresponds f l s).isEmpty_eq
  have hr := (mapM_corresponds f r ((l.mapM f).run s).2).isEmpty_eq
  have hrun : (do
      let l' ← l.mapM f
      let r' ← r.mapM f
      return o.compose l' r' : StateM σ (Cause δ)) s =
        (o.compose ((l.mapM f).run s).1 ((r.mapM f).run ((l.mapM f).run s).2).1, ((r.mapM f).run ((l.mapM f).run s).2).2) := rfl
  rw [hrun, o.compose_eq, o.compose_eq, hl, hr]
  split
  · rename_i he
    rw [mapM_of_isEmpty f he]
    rfl
  · split
    · rename_i he
      rw [mapM_of_isEmpty f he]
      rfl
    · cases o <;> rfl

/-- Two functions, one after the other, each with a state of its own. -/
def inTurn (f : ε → StateM σ δ) (g : δ → StateM τ γ) : ε → StateM (σ × τ) γ := fun e s =>
  let (d, first) := (f e).run s.1
  let (x, second) := (g d).run s.2
  (x, (first, second))

/-- To map by one function and then by another one is to map by both, one after the other. -/
theorem mapM_inTurn (f : ε → StateM σ δ) (g : δ → StateM τ γ) (c : Cause ε) (s : σ) (t : τ) :
    (c.mapM (inTurn f g)).run (s, t) =
      let (c', first) := (c.mapM f).run s
      let (c'', second) := (c'.mapM g).run t
      (c'', (first, second)) := by
  induction c generalizing s t with
  | empty | fail | die | interrupt => rfl
  | «then» l r ihl ihr | both l r ihl ihr =>
    simp only [mapM, StateT.run_bind, ihl, ihr]
    rfl

end Cause

/-- However two causes are composed, the result has the failures and the defects of both, those of the first one first, and
what is empty among the operands leaves no trace: an operand without content leaves the other one as it is.

Mapping a cause keeps its shape and its other leaves. The function may keep a state: it is called just once with each failure,
from left to right, and what it answers stands where the failure stood. To map twice is to map by one function after the other,
each with a state of its own. To map a composition is to compose what has been mapped. All this holds of functions without a
state in particular, by which a cause is mapped all at once. -/
theorem causes_composed_and_mapped {ε δ γ σ τ : Type} (l r c : Cause ε) (f : ε → StateM σ δ) (g : δ → StateM τ γ)
    (p : ε → δ) (q : δ → γ) :
    (∀ o : Cause.Order, Cause.Composed o l r (o.compose l r)) ∧
    (∀ s, Cause.Corresponds (fun _ _ => True) c ((c.mapM f).run s).1) ∧
    Cause.failures <$> c.mapM f = c.failures.mapM f ∧
    (∀ s t, (c.mapM (Cause.inTurn f g)).run (s, t) =
      let (c', first) := (c.mapM f).run s
      let (c'', second) := (c'.mapM g).run t
      (c'', (first, second))) ∧
    (∀ o : Cause.Order, (o.compose l r).mapM f = do
      let l' ← l.mapM f
      let r' ← r.mapM f
      return o.compose l' r') ∧
    c.mapM (m := StateM σ) (fun e => pure (p e)) = pure (c.map p) ∧
    Cause.Corresponds (fun e d => d = p e) c (c.map p) ∧
    (c.map p).map q = c.map (q ∘ p) ∧
    (∀ o : Cause.Order, (o.compose l r).map p = o.compose (l.map p) (r.map p)) :=
  ⟨fun o => Cause.compose_composed o l r, c.mapM_corresponds f, c.failures_mapM f, c.mapM_inTurn f g,
    fun o => Cause.mapM_compose o f l r, c.mapM_pure p, c.map_corresponds p, Cause.map_map p q c,
    fun o => Cause.map_compose o p l r⟩

end Interruptible
