import Interruptible.Proofs.Cause.Composition

/-!
# Questions about causes

The questions that can be asked of a cause are answered by recursions of their own: some go through the leaves, one takes the
tree apart and puts it together again, one gathers what it finds on its way. All of them agree with what the leaves are
(`Cause.LeafOf`) and with each other (`causes_answered`), whatever the shape of the tree and wherever it is empty.
-/

namespace Interruptible

namespace Cause

variable {ε : Type} {a c : Cause ε}

/-- A cause that is not composed of others. -/
def IsLeaf : Cause ε → Prop
  | .then _ _ | .both _ _ => False
  | .empty | .fail _ | .die _ | .interrupt => True

/-- A leaf of a cause: a part of it that is not composed of others. -/
def LeafOf (a c : Cause ε) : Prop := a.IsLeaf ∧ Inside a c

/-- A cause without any content, of whatever shape: all of its leaves are empty. -/
def Hollow (c : Cause ε) : Prop := ∀ a : Cause ε, a.LeafOf c → a = .empty

/-! ## Leaves -/

theorem leafOf_then {l r : Cause ε} : a.LeafOf (.then l r) ↔ a.LeafOf l ∨ a.LeafOf r := by
  constructor
  · rintro ⟨ha, h⟩
    cases h with
    | whole => exact ha.elim
    | first h => exact .inl ⟨ha, h⟩
    | next _ h => exact .inr ⟨ha, h⟩
  · rintro (⟨ha, h⟩ | ⟨ha, h⟩)
    · exact ⟨ha, h.first r⟩
    · exact ⟨ha, h.next l⟩

theorem leafOf_both {l r : Cause ε} : a.LeafOf (.both l r) ↔ a.LeafOf l ∨ a.LeafOf r := by
  constructor
  · rintro ⟨ha, h⟩
    cases h with
    | whole => exact ha.elim
    | left h => exact .inl ⟨ha, h⟩
    | right _ h => exact .inr ⟨ha, h⟩
  · rintro (⟨ha, h⟩ | ⟨ha, h⟩)
    · exact ⟨ha, h.left r⟩
    · exact ⟨ha, h.right l⟩

/-- The only leaf of a leaf is the leaf itself. -/
theorem IsLeaf.leafOf_iff (hc : c.IsLeaf) : a.LeafOf c ↔ a = c := by
  constructor
  · rintro ⟨-, h⟩
    cases h with
    | whole => rfl
    | first | next | left | right => exact hc.elim
  · rintro rfl
    exact ⟨hc, .whole⟩

/-- The leaves of a leaf are that leaf. -/
theorem IsLeaf.mem_leaves (hc : c.IsLeaf) : a ∈ c.leaves ↔ a.LeafOf c := by
  rw [hc.leafOf_iff]
  cases c with
  | empty | fail | die | interrupt => exact List.mem_singleton
  | «then» | both => exact hc.elim

/-- The list of leaves has all leaves. -/
theorem mem_leaves : a ∈ c.leaves ↔ a.LeafOf c := by
  induction c with
  | empty | fail | die | interrupt => exact IsLeaf.mem_leaves trivial
  | «then» l r ihl ihr => rw [leaves, List.mem_append, ihl, ihr, leafOf_then]
  | both l r ihl ihr => rw [leaves, List.mem_append, ihl, ihr, leafOf_both]

/-! ## What is among the leaves -/

@[simp] theorem failures_then (l r : Cause ε) : (Cause.then l r).failures = l.failures ++ r.failures :=
  List.filterMap_append

@[simp] theorem failures_both (l r : Cause ε) : (Cause.both l r).failures = l.failures ++ r.failures :=
  List.filterMap_append

@[simp] theorem defects_then (l r : Cause ε) : (Cause.then l r).defects = l.defects ++ r.defects :=
  List.filterMap_append

@[simp] theorem defects_both (l r : Cause ε) : (Cause.both l r).defects = l.defects ++ r.defects :=
  List.filterMap_append

/-- A cause is empty if all of its leaves are. -/
theorem isEmpty_iff_hollow : c.isEmpty = true ↔ c.Hollow := by
  simp only [Hollow, ← mem_leaves]
  induction c with
  | empty | fail | die | interrupt => simp [isEmpty, leaves]
  | «then» l r ihl ihr | both l r ihl ihr =>
    rw [isEmpty, Bool.and_eq_true, ihl, ihr, leaves]
    simp only [List.mem_append, or_imp, forall_and]

/-- A cause is interrupted if and only if interruption is one of its leaves. -/
theorem isInterrupted_iff_leafOf : c.isInterrupted = true ↔ LeafOf .interrupt c := by
  rw [← mem_leaves]
  induction c with
  | empty | fail | die | interrupt => simp [isInterrupted, leaves]
  | «then» l r ihl ihr | both l r ihl ihr => rw [isInterrupted, Bool.or_eq_true, ihl, ihr, leaves, List.mem_append]

/-- A cause has a failure if and only if some failures are found in it. -/
theorem hasFailure_iff_failures : c.hasFailure = true ↔ c.failures ≠ [] := by
  induction c with
  | empty | fail | die | interrupt => simp [hasFailure, failures, leaves, failure?]
  | «then» l r ihl ihr | both l r ihl ihr =>
    simp only [hasFailure, Bool.or_eq_true, ihl, ihr, failures_then, failures_both, Ne, List.append_eq_nil_iff,
      Classical.not_and_iff_not_or_not]

/-- A leaf holds a failure or a defect, or it is interruption, or nothing. -/
theorem IsLeaf.plain_iff (ha : a.IsLeaf) :
    (a.failure? = none ∧ a.defect? = none) ↔ a = .interrupt ∨ a = .empty := by
  cases a with
  | empty | fail | die | interrupt => simp [failure?, defect?]
  | «then» | both => exact ha.elim

/-- There are no failures and no defects if the leaves are interruption and nothing. -/
theorem plain_iff_leaves :
    (c.failures = [] ∧ c.defects = []) ↔ ∀ a : Cause ε, a.LeafOf c → a = .interrupt ∨ a = .empty := by
  simp only [failures, defects, List.filterMap_eq_nil_iff, mem_leaves]
  constructor
  · rintro ⟨hf, hd⟩ a ha
    exact ha.1.plain_iff.mp ⟨hf a ha, hd a ha⟩
  · intro h
    exact ⟨fun a ha => (ha.1.plain_iff.mpr (h a ha)).1, fun a ha => (ha.1.plain_iff.mpr (h a ha)).2⟩

/-- An empty cause is one of which nothing is told. -/
theorem isEmpty_iff_nothing : c.isEmpty = true ↔ c.failures = [] ∧ c.defects = [] ∧ c.isInterrupted = false := by
  rw [isEmpty_iff_hollow, ← and_assoc, plain_iff_leaves, Bool.eq_false_iff, Ne, isInterrupted_iff_leafOf]
  constructor
  · intro h
    refine ⟨fun a ha => .inr (h a ha), fun hi => ?_⟩
    nomatch h .interrupt hi
  · rintro ⟨h, hi⟩ a ha
    rcases h a ha with rfl | rfl
    · exact absurd ha hi
    · rfl

/-- Interruption is all there is if it is among the leaves and the others are empty. -/
theorem isInterruptedOnly_iff_leaves :
    c.isInterruptedOnly = true ↔ LeafOf .interrupt c ∧ ∀ a : Cause ε, a.LeafOf c → a = .interrupt ∨ a = .empty := by
  rw [isInterruptedOnly, Bool.and_eq_true, Bool.and_eq_true, isInterrupted_iff_leafOf, Bool.not_eq_true',
    Bool.eq_false_iff, Ne, hasFailure_iff_failures, Classical.not_not, List.isEmpty_iff, and_assoc, plain_iff_leaves]

/-! ## Taking a cause apart -/

/-- A cause is taken apart for its leftmost typed failure; a cause without one is given back as it is. -/
theorem failureOr_eq (c : Cause ε) :
    (c.failureOr : Except (Cause ε) ε) = match c.failures with
      | e :: _ => .ok e
      | [] => .error c := by
  induction c with
  | empty | fail | die | interrupt => rfl
  | «then» l r ihl ihr | both l r ihl ihr =>
    simp only [failureOr, ihl, ihr, failures_then, failures_both]
    cases l.failures with
    | cons e es => rfl
    | nil => cases r.failures <;> rfl

/-- What is gathered on the way is added to what was found before. -/
theorem gather_eq (c : Cause ε) (found : List ε × List Defect) :
    c.gather found = (found.1 ++ c.failures, found.2 ++ c.defects) := by
  induction c generalizing found with
  | empty | interrupt => exact Prod.ext (List.append_nil _).symm (List.append_nil _).symm
  | fail e => exact Prod.ext rfl (List.append_nil _).symm
  | die d => exact Prod.ext (List.append_nil _).symm rfl
  | «then» l r ihl ihr | both l r ihl ihr => simp [gather, ihl, ihr]

/-- The first failure is reported; without one the first defect; without one interruption, if there is any. -/
theorem squash_eq (c : Cause ε) :
    c.squash = match c.failures, c.defects with
      | e :: _, _ => .failure e
      | [], d :: _ => .defect d
      | [], [] => if c.isInterrupted then .interrupted else .empty := by
  rw [squash, gather_eq]
  cases c.failures with
  | cons e es => rfl
  | nil => cases c.defects <;> rfl

/-- There is nothing to report of an empty cause only. -/
theorem squash_eq_empty_iff : c.squash = .empty ↔ c.isEmpty = true := by
  rw [isEmpty_iff_nothing, squash_eq]
  cases c.failures with
  | cons e es => simp
  | nil =>
    cases c.defects with
    | cons d ds => simp
    | nil => cases c.isInterrupted <;> simp

end Cause

/-- Whatever the shape of a cause, the questions about it agree. It is taken apart for the first of its failures, or is given
back as it is if it has none. It is boiled down to that same failure; without one, to the first defect; without one, to
interruption if this is among the leaves; and to nothing just if it is empty. It has a failure just if there is one among its
failures, and it is nothing but interruption just if one leaf is interruption and all others are that or empty. -/
theorem causes_answered {ε : Type} (c : Cause ε) :
    ((c.failureOr : Except (Cause ε) ε) = match c.failures with
      | e :: _ => .ok e
      | [] => .error c) ∧
    (c.squash = match c.failures, c.defects with
      | e :: _, _ => .failure e
      | [], d :: _ => .defect d
      | [], [] => if c.isInterrupted then .interrupted else .empty) ∧
    (c.squash = .empty ↔ c.isEmpty = true) ∧
    (c.hasFailure = true ↔ c.failures ≠ []) ∧
    (c.isInterruptedOnly = true ↔
      Cause.LeafOf .interrupt c ∧ ∀ a : Cause ε, a.LeafOf c → a = .interrupt ∨ a = .empty) :=
  ⟨c.failureOr_eq, c.squash_eq, Cause.squash_eq_empty_iff, Cause.hasFailure_iff_failures,
    Cause.isInterruptedOnly_iff_leaves⟩

end Interruptible
