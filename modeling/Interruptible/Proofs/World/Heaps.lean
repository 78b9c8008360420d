import Interruptible.Proofs.World.Alike

/-!
# Cells that somebody owns

Whoever builds brackets makes cells for them, and nobody else touches these. A heap lists such cells with what lies in them.
`Heap.Becomes` says what its owner may do to the world: change these cells and make more of them, while the other cells of
that kind stay as they are. It holds for a part of a heap and therefore for the whole (`Heap.Becomes.framed`).

A callback whose outcome does not depend on what the world answers comes to the same in any world, with more cells at most
(`Action.Comes.run`).
-/

namespace Interruptible

/-- Cells that have one owner, and what lies in them. -/
abbrev Heap := List (CellId × Option Payload)

namespace Heap

variable {own : CellId → Prop} {w w' w'' : World} {H H' H'' : Heap}

/-- The cells are there, each once, and belong to those who own cells in this way. -/
structure Stands (own : CellId → Prop) (H : Heap) (w : World) : Prop where
  once : (H.map (·.1)).Nodup
  owned : ∀ x ∈ H, own x.1
  lies : ∀ x ∈ H, w.cells[x.1]? = some x.2

/-- What the owner of a heap may do: the world changes and so does the heap, but no other owned cell. -/
structure Becomes (own : CellId → Prop) (w : World) (H : Heap) (w' : World) (H' : Heap) : Prop where
  stands : H'.Stands own w'
  fresh : ∀ x ∈ H', (∃ y ∈ H, y.1 = x.1) ∨ w.cells.size ≤ x.1
  rest : ∀ c, own c → (∀ x ∈ H, x.1 ≠ c) → c < w.cells.size → w'.cells[c]? = w.cells[c]?

namespace Stands

/-- Fewer cells. -/
theorem sublist (h : H.Stands own w) (hs : H'.Sublist H) : H'.Stands own w where
  once := h.once.sublist (hs.map _)
  owned x hx := h.owned x (hs.subset hx)
  lies x hx := h.lies x (hs.subset hx)

/-- Others have not touched the cells. -/
theorem kept (h : H.Stands own w) (hw : ∀ c, own c → w'.cells[c]? = w.cells[c]?) : H.Stands own w' where
  once := h.once
  owned := h.owned
  lies x hx := (hw x.1 (h.owned x hx)).trans (h.lies x hx)

theorem lt (h : H.Stands own w) {x : CellId × Option Payload} (hx : x ∈ H) : x.1 < w.cells.size :=
  (Array.getElem?_eq_some_iff.mp (h.lies x hx)).1

end Stands

/-- Two heaps that have no cell in common. -/
theorem stands_append {A B : Heap} :
    (A ++ B).Stands own w ↔ A.Stands own w ∧ B.Stands own w ∧ ∀ x ∈ A, ∀ y ∈ B, x.1 ≠ y.1 := by
  constructor
  · intro h
    refine ⟨h.sublist (List.sublist_append_left _ _), h.sublist (List.sublist_append_right _ _), fun x hx y hy => ?_⟩
    have hnodup := h.once
    rw [List.map_append, List.nodup_append] at hnodup
    exact hnodup.2.2 x.1 (List.mem_map_of_mem hx) y.1 (List.mem_map_of_mem hy)
  · rintro ⟨hA, hB, hAB⟩
    refine ⟨?_, fun x hx => ?_, fun x hx => ?_⟩
    · rw [List.map_append, List.nodup_append]
      refine ⟨hA.once, hB.once, fun a ha b hb => ?_⟩
      obtain ⟨x, hx, rfl⟩ := List.mem_map.mp ha
      obtain ⟨y, hy, rfl⟩ := List.mem_map.mp hb
      exact hAB x hx y hy
    · exact (List.mem_append.mp hx).elim (hA.owned x) (hB.owned x)
    · exact (List.mem_append.mp hx).elim (hA.lies x) (hB.lies x)

namespace Becomes

theorem refl (h : H.Stands own w) : Becomes own w H w H where
  stands := h
  fresh x hx := .inl ⟨x, hx, rfl⟩
  rest _ _ _ _ := rfl

theorem trans (h : Becomes own w H w' H') (h' : Becomes own w' H' w'' H'') : Becomes own w H w'' H'' where
  stands := h'.stands
  fresh x hx := by
    by_cases hmem : ∃ y ∈ H, y.1 = x.1
    · exact .inl hmem
    refine .inr (Nat.not_lt.mp fun hlt => ?_)
    have hkept := h.rest x.1 (h'.stands.owned x hx) (fun y hy heq => hmem ⟨y, hy, heq⟩) hlt
    rcases h'.fresh x hx with ⟨y, hy, heq⟩ | hnew
    · rcases h.fresh y hy with ⟨z, hz, heq'⟩ | hnew
      · exact hmem ⟨z, hz, heq'.trans heq⟩
      · exact absurd hlt (Nat.not_lt.mpr (heq ▸ hnew))
    · rw [Array.getElem?_eq_none hnew, Array.getElem?_eq_getElem hlt] at hkept
      nomatch hkept
  rest c hc hH hlt := by
    have hkept := h.rest c hc hH hlt
    have hlt' : c < w'.cells.size := by
      rw [Array.getElem?_eq_getElem hlt] at hkept
      exact (Array.getElem?_eq_some_iff.mp hkept).1
    refine (h'.rest c hc (fun x hx heq => ?_) hlt').trans hkept
    rcases h.fresh x hx with ⟨y, hy, heq'⟩ | hnew
    · exact hH y hy (heq'.trans heq)
    · exact absurd hlt (Nat.not_lt.mpr (heq ▸ hnew))

/-- Nothing but cells matters. -/
theorem cells {v v' : World} (h : Becomes own w H w' H') (hw : v.cells = w.cells) (hw' : v'.cells = w'.cells) :
    Becomes own v H v' H' where
  stands := h.stands.kept fun c _ => by rw [hw']
  fresh := by rw [hw]; exact h.fresh
  rest := by rw [hw, hw']; exact h.rest

/-- Some cells are given up. -/
theorem sublist (h : Becomes own w H w' H') (hs : H''.Sublist H') : Becomes own w H w' H'' where
  stands := h.stands.sublist hs
  fresh x hx := h.fresh x (hs.subset hx)
  rest := h.rest

/-- The owner of more cells has left the others alone. -/
theorem of_part (h : Becomes own w H w' H') (hs : ∀ x ∈ H, x ∈ H'') : Becomes own w H'' w' H' where
  stands := h.stands
  fresh x hx := (h.fresh x hx).imp_left fun ⟨y, hy, heq⟩ => ⟨y, hs y hy, heq⟩
  rest c hc hx hlt := h.rest c hc (fun x hx' => hx x (hs x hx')) hlt

/-- Others have not touched the cells that are owned. -/
theorem of_same (hH : H.Stands own w) (hw : ∀ c, own c → w'.cells[c]? = w.cells[c]?) : Becomes own w H w' H where
  stands := hH.kept hw
  fresh x hx := .inl ⟨x, hx, rfl⟩
  rest c hc _ _ := hw c hc

/-- Nothing has happened to cells that were there. -/
theorem of_kept (hH : H.Stands own w) (hw : ∀ c, c < w.cells.size → w'.cells[c]? = w.cells[c]?) : Becomes own w H w' H where
  stands := ⟨hH.once, hH.owned, fun x hx => (hw x.1 (hH.lt hx)).trans (hH.lies x hx)⟩
  fresh x hx := .inl ⟨x, hx, rfl⟩
  rest c _ _ hlt := hw c hlt

/-- What is done with a heap leaves a heap apart from it as it is, and apart. -/
theorem apart {B : Heap} (h : Becomes own w H w' H') (hB : B.Stands own w) (hHB : ∀ x ∈ H, ∀ y ∈ B, x.1 ≠ y.1) :
    B.Stands own w' ∧ ∀ x ∈ H', ∀ y ∈ B, x.1 ≠ y.1 := by
  refine ⟨⟨hB.once, hB.owned, fun y hy => ?_⟩, fun x hx y hy heq => ?_⟩
  · exact (h.rest y.1 (hB.owned y hy) (fun x hx => hHB x hx y hy) (hB.lt hy)).trans (hB.lies y hy)
  · rcases h.fresh x hx with ⟨z, hz, hzx⟩ | hnew
    · exact hHB z hz y hy (hzx.trans heq)
    · rw [heq] at hnew
      exact absurd (hB.lt hy) (Nat.not_lt.mpr hnew)

/-- The part of a heap that comes first. -/
theorem front {B : Heap} (hH : (H ++ B).Stands own w) (h : Becomes own w H w' H') :
    Becomes own w (H ++ B) w' (H' ++ B) where
  stands := by
    obtain ⟨-, hB, hHB⟩ := stands_append.mp hH
    obtain ⟨hB', hHB'⟩ := h.apart hB hHB
    exact stands_append.mpr ⟨h.stands, hB', hHB'⟩
  fresh x hx := by
    rcases List.mem_append.mp hx with hx | hx
    · exact (h.fresh x hx).imp_left fun ⟨y, hy, heq⟩ => ⟨y, List.mem_append_left _ hy, heq⟩
    · exact .inl ⟨x, List.mem_append_right _ hx, rfl⟩
  rest c hc hx hlt := h.rest c hc (fun x hx' => hx x (List.mem_append_left _ hx')) hlt

/-- The part of a heap that comes last. -/
theorem back {A : Heap} (hH : (A ++ H).Stands own w) (h : Becomes own w H w' H') :
    Becomes own w (A ++ H) w' (A ++ H') where
  stands := by
    obtain ⟨hA, -, hAH⟩ := stands_append.mp hH
    obtain ⟨hA', hAH'⟩ := h.apart hA fun x hx y hy => (hAH y hy x hx).symm
    exact stands_append.mpr ⟨hA', h.stands, fun x hx y hy => (hAH' y hy x hx).symm⟩
  fresh x hx := by
    rcases List.mem_append.mp hx with hx | hx
    · exact .inl ⟨x, List.mem_append_left _ hx, rfl⟩
    · exact (h.fresh x hx).imp_left fun ⟨y, hy, heq⟩ => ⟨y, List.mem_append_right _ hy, heq⟩
  rest c hc hx hlt := h.rest c hc (fun x hx' => hx x (List.mem_append_right _ hx')) hlt

/-- What is done with a part of a heap leaves the other parts as they are. -/
theorem framed {A B : Heap} (hH : (A ++ H ++ B).Stands own w) (h : Becomes own w H w' H') :
    Becomes own w (A ++ H ++ B) w' (A ++ H' ++ B) :=
  front hH (back (stands_append.mp hH).1 h)

/-- The contents of a cell are replaced. -/
theorem put {A B : Heap} {c : CellId} {x : Option Payload} (hH : (A ++ (c, x) :: B).Stands own w) (y : Option Payload) :
    Becomes own w (A ++ (c, x) :: B) { w with cells := w.cells.modify c fun _ => y } (A ++ (c, y) :: B) := by
  have hc := hH.lies (c, x) (by simp)
  have hown := hH.owned (c, x) (by simp)
  have hone : Becomes own w [(c, x)] { w with cells := w.cells.modify c fun _ => y } [(c, y)] := by
    refine ⟨⟨by simp, fun z hz => ?_, fun z hz => ?_⟩, fun z hz => ?_, fun d _ hd _ => ?_⟩
    · obtain rfl := List.mem_singleton.mp hz
      exact hown
    · obtain rfl := List.mem_singleton.mp hz
      rw [Array.getElem?_modify, if_pos rfl, hc]
      rfl
    · obtain rfl := List.mem_singleton.mp hz
      exact .inl ⟨_, List.mem_singleton.mpr rfl, rfl⟩
    · rw [Array.getElem?_modify, if_neg (hd _ List.mem_cons_self)]
  have hsplit : ∀ z, A ++ (c, z) :: B = A ++ [(c, z)] ++ B := by simp
  rw [hsplit] at hH ⊢
  rw [hsplit]
  exact framed hH hone

end Becomes

end Heap

/-! ## Callbacks that come to the same in any world -/

/-- A command that trips no token and has nothing to do with cells. -/
def Command.Harmless : Command → Prop
  | .interrupt _ | .link _ _ | .newCell | .fill _ _ | .take _ => False
  | _ => True

theorem World.openGate_cells (w : World) (g : String) : (w.openGate g).cells = w.cells := by
  unfold openGate
  split
  · rfl
  · exact (Alike.of_emit _ _).cells

/-- Harmless commands leave all cells as they are. -/
theorem Command.Harmless.cells {c : Command} (hc : c.Harmless) (trip : Tripping) (w : World) :
    (c.run trip w).2.cells = w.cells := by
  cases c with
  | openGate g => exact World.openGate_cells w g
  | interrupt | link | newCell | fill | take => exact hc.elim
  | _ => rfl

/-- Whatever the world answers, an action makes some cells at most, trips no token, and has an outcome that is as `Q` says of
it and of the cells, those that the action has owned before and those that it has made. -/
inductive Action.Comes {α : Type} (Q : Heap → Except Panic α → Prop) : Heap → Action α → Prop where
  | pure {H : Heap} {a : α} (h : Q H (.ok a)) : Comes Q H (.pure a)
  | panic {H : Heap} {p : Panic} (h : Q H (.error p)) : Comes Q H (.panic p)
  | newCell {H : Heap} {next : CellId → Action α} (h : ∀ c, Comes Q ((c, none) :: H) (next c)) :
    Comes Q H (.ask .newCell next)
  | ask {H : Heap} {c : Command} {next : c.Reply → Action α} (hc : c.Harmless) (h : ∀ r, Comes Q H (next r)) :
    Comes Q H (.ask c next)

namespace Action.Comes

variable {α : Type} {Q : Heap → Except Panic α → Prop} {H : Heap} {a : Action α}

/-- The outcome is as predicted. -/
theorem outcome (h : a.Comes Q H) (w : World) : ∃ H', Q H' (a.run w).1 := by
  induction h generalizing w with
  | pure h | panic h => exact ⟨_, h⟩
  | newCell _ ih => exact ih w.cells.size _
  | ask _ _ ih => exact ih _ _

/-- An action that comes to something gives up no cells. -/
theorem grows (h : a.Comes Q H) (w : World) : w.cells.size ≤ (a.run w).2.cells.size := by
  induction h generalizing w with
  | pure | panic => exact Nat.le_refl _
  | newCell _ ih =>
    have := ih w.cells.size { w with cells := w.cells.push none }
    rw [Array.size_push] at this
    exact Nat.le_trans (Nat.le_succ _) this
  | @ask H c next hc _ ih =>
    have := ih (c.run World.interrupt w).1 (c.run World.interrupt w).2
    rwa [hc.cells] at this

/-- An action that comes to something leaves the cells as they are that were there. -/
theorem kept (h : a.Comes Q H) (w : World) {c : CellId} (hc : c < w.cells.size) : (a.run w).2.cells[c]? = w.cells[c]? := by
  induction h generalizing w with
  | pure | panic => rfl
  | newCell _ ih =>
    have hc' : c < (w.cells.push none).size := by
      rw [Array.size_push]
      exact Nat.lt_succ_of_lt hc
    have hkept := ih w.cells.size { w with cells := w.cells.push none } hc'
    rw [Array.getElem?_push, if_neg (Nat.ne_of_lt hc)] at hkept
    exact hkept
  | @ask H c' next hc' _ ih =>
    have hcells := hc'.cells World.interrupt w
    exact (ih _ (c'.run World.interrupt w).2 (by rw [hcells]; exact hc)).trans (by rw [hcells])

/-- The owner of the heap has done no more than to make some cells. -/
theorem run {own : CellId → Prop} (h : a.Comes Q H) {w : World} (hH : H.Stands own w)
    (hmake : ∀ c, w.cells.size ≤ c → c < (a.run w).2.cells.size → own c) :
    ∃ H', Q H' (a.run w).1 ∧ Heap.Becomes own w H (a.run w).2 H' := by
  induction h generalizing w with
  | pure h | panic h => exact ⟨_, h, .refl hH⟩
  | @newCell H next hnext ih =>
    have hgrows := (hnext w.cells.size).grows { w with cells := w.cells.push none }
    rw [Array.size_push] at hgrows
    have hstep : Heap.Becomes own w H { w with cells := w.cells.push none } ((w.cells.size, none) :: H) := by
      refine ⟨⟨?_, fun x hx => ?_, fun x hx => ?_⟩, fun x hx => ?_, fun c _ _ hlt => ?_⟩
      · refine List.nodup_cons.mpr ⟨fun hmem => ?_, hH.once⟩
        obtain ⟨x, hx, heq⟩ := List.mem_map.mp hmem
        exact absurd (hH.lt hx) (Nat.not_lt.mpr (Nat.le_of_eq heq.symm))
      · rcases List.mem_cons.mp hx with rfl | hx
        · exact hmake _ (Nat.le_refl _) hgrows
        · exact hH.owned x hx
      · rcases List.mem_cons.mp hx with rfl | hx
        · simp
        · rw [Array.getElem?_push, if_neg (Nat.ne_of_lt (hH.lt hx))]
          exact hH.lies x hx
      · rcases List.mem_cons.mp hx with rfl | hx
        · exact .inr (Nat.le_refl _)
        · exact .inl ⟨x, hx, rfl⟩
      · rw [Array.getElem?_push, if_neg (Nat.ne_of_lt hlt)]
    obtain ⟨H', hQ, hrun⟩ := ih w.cells.size hstep.stands fun c hle hlt => hmake c (by
      rw [Array.size_push] at hle
      exact Nat.le_of_succ_le hle) hlt
    exact ⟨H', hQ, hstep.trans hrun⟩
  | @ask H c next hc _ ih =>
    have hcells := hc.cells World.interrupt w
    have hH' : H.Stands own (c.run World.interrupt w).2 := hH.kept fun c _ => by rw [hcells]
    obtain ⟨H', hQ, hrun⟩ := ih (c.run World.interrupt w).1 hH' (by rw [hcells]; exact hmake)
    exact ⟨H', hQ, hrun.cells hcells.symm rfl⟩

end Action.Comes

end Interruptible
