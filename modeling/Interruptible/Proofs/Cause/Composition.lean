import Interruptible.Cause

/-!
# Causes inside causes

Composition keeps its operands. A cause that is composed with others stays a part of the result, in sequence with what was
composed by `Cause.andThen` (`Cause.Sequenced`), and somewhere inside what was composed by `Cause.beside` as well
(`Cause.Inside`). Only an operand that holds nothing is left out.
-/

namespace Interruptible

/-- What one operand passes on to the result is passed on from the first operand and from all that are folded into it. -/
theorem foldl_of_operand {α : Type} {P : α → Prop} {f : α → α → α} (hl : ∀ a b, P a → P (f a b))
    (hr : ∀ a b, P b → P (f a b)) {as : List α} {a : α} (h : P a ∨ ∃ b ∈ as, P b) : P (as.foldl f a) := by
  induction as generalizing a with
  | nil =>
    rcases h with h | ⟨b, hb, -⟩
    · exact h
    · nomatch hb
  | cons b as ih =>
    refine ih ?_
    rcases h with h | ⟨b', hb, h⟩
    · exact .inl (hl a b h)
    · rcases List.mem_cons.mp hb with rfl | hb
      · exact .inl (hr a b' h)
      · exact .inr ⟨b', hb, h⟩

namespace Cause

variable {ε : Type} {a c d : Cause ε}

/-- One cause is part of another one, alone or in sequence with others. -/
inductive Sequenced (a : Cause ε) : Cause ε → Prop where
  | whole : Sequenced a a
  | first {c : Cause ε} (h : Sequenced a c) (d : Cause ε) : Sequenced a (.then c d)
  | next (c : Cause ε) {d : Cause ε} (h : Sequenced a d) : Sequenced a (.then c d)

/-- One cause is part of another one, with others before it, after it or beside it. -/
inductive Inside (a : Cause ε) : Cause ε → Prop where
  | whole : Inside a a
  | first {c : Cause ε} (h : Inside a c) (d : Cause ε) : Inside a (.then c d)
  | next (c : Cause ε) {d : Cause ε} (h : Inside a d) : Inside a (.then c d)
  | left {c : Cause ε} (h : Inside a c) (d : Cause ε) : Inside a (.both c d)
  | right (c : Cause ε) {d : Cause ε} (h : Inside a d) : Inside a (.both c d)

/-- What holds something makes every cause hold something that it is a part of. -/
theorem Inside.isEmpty_eq_false (h : Inside a c) (ha : a.isEmpty = false) : c.isEmpty = false := by
  induction h with
  | whole => exact ha
  | first _ d ih | left _ d ih => rw [isEmpty, ih, Bool.false_and]
  | next c _ ih | right c _ ih => rw [isEmpty, ih, Bool.and_false]

theorem Sequenced.inside (h : Sequenced a c) : Inside a c := by
  induction h with
  | whole => exact .whole
  | first _ d ih => exact ih.first d
  | next c _ ih => exact ih.next c

theorem Sequenced.andThen_left (h : Sequenced a c) (ha : a.isEmpty = false) (d : Cause ε) :
    Sequenced a (c.andThen d) := by
  unfold andThen
  rw [if_neg (by simp [h.inside.isEmpty_eq_false ha])]
  split
  · exact h
  · exact h.first d

theorem Sequenced.andThen_right (c : Cause ε) (h : Sequenced a d) (ha : a.isEmpty = false) :
    Sequenced a (c.andThen d) := by
  unfold andThen
  split
  · exact h
  · rw [if_neg (by simp [h.inside.isEmpty_eq_false ha])]
    exact h.next c

theorem Inside.beside_left (h : Inside a c) (ha : a.isEmpty = false) (d : Cause ε) : Inside a (c.beside d) := by
  unfold beside
  rw [if_neg (by simp [h.isEmpty_eq_false ha])]
  split
  · exact h
  · exact h.left d

theorem Inside.beside_right (c : Cause ε) (h : Inside a d) (ha : a.isEmpty = false) : Inside a (c.beside d) := by
  unfold beside
  split
  · exact h
  · rw [if_neg (by simp [h.isEmpty_eq_false ha])]
    exact h.right c

/-- Each of the causes that are composed one after the other is in sequence with the rest, and so is a part of the first. -/
theorem Sequenced.foldl_andThen (ha : a.isEmpty = false) {causes : List (Cause ε)} (h : Sequenced a c ∨ a ∈ causes) :
    Sequenced a (causes.foldl andThen c) :=
  foldl_of_operand (fun _ d h => h.andThen_left ha d) (fun c _ h => h.andThen_right c ha)
    (h.imp_right fun h => ⟨a, h, .whole⟩)

/-- Each of the causes that are composed side by side is inside the result, and so is a part of the first. -/
theorem Inside.foldl_beside (ha : a.isEmpty = false) {causes : List (Cause ε)} (h : Inside a c ∨ a ∈ causes) :
    Inside a (causes.foldl beside c) :=
  foldl_of_operand (fun _ d h => h.beside_left ha d) (fun c _ h => h.beside_right c ha)
    (h.imp_right fun h => ⟨a, h, .whole⟩)

end Cause

end Interruptible
