import Interruptible.Proofs.World.Tandem

/-!
# Regions that have nothing to do with each other

A region is closed in a world if all that it names deals with nothing else (`World.Closed`): what stands on its tokens and the
hooks of its operations have no other names, and nor has what it may read. Two regions are apart if they have no name in
common and neither writes what it could matter to the other one to read (`Region.Apart`). Then what the one does is of no
consequence for the other: a token of a closed region may trip, with all that follows from it, and whatever matched without
the region matches as before (`World.Matches.spared`, `World.Beyond.tripped`); and a region that is closed is still so after
somebody else's step (`World.Beyond.stepped`). A poll that comes to nothing is of no consequence for anybody
(`World.Undisturbed`).
-/

namespace Interruptible

namespace Region

theorem left_diagonal (V : Region) : V.diagonal.left = V := by
  refine Region.ext ?_ rfl rfl
  funext k a
  exact propext ⟨fun ⟨_, ha, _⟩ => ha, fun ha => ⟨a, ha, rfl⟩⟩

theorem right_diagonal (V : Region) : V.diagonal.right = V := by
  refine Region.ext ?_ rfl rfl
  funext k b
  exact propext ⟨fun ⟨_, ha, heq⟩ => heq ▸ ha, fun hb => ⟨b, hb, rfl⟩⟩

/-- The first region has nothing to do with the second one. It may count something or open a gate where the second one looks,
but it reads nothing that the second one writes. -/
structure Apart (V D : Region) : Prop where
  ids : ∀ k i, V.ids k i → ¬ D.ids k i
  reads : ∀ s, D.writes s → ¬ V.reads s
  writes : ∀ s, V.writes s → D.reads s → s.Plain

end Region

namespace World

/-- What a region names deals with nothing else. -/
def Closed (V : Region) (w : World) : Prop := w.Matches V.diagonal w

/-- What a closed region names is there. -/
theorem Closed.lt {V : Region} {w : World} (h : w.Closed V) {k : Kind} {i : Nat} (hi : V.ids k i) : i < w.count k :=
  have hself : V.diagonal.ids k i i := ⟨hi, rfl⟩
  (h.lt_counts hself).1

theorem Matches.lt_left {κ : Counterparts} {w w' : World} (h : w.Matches κ w') {k : Kind} {a : Nat}
    (ha : κ.left.ids k a) : a < w.count k := by
  obtain ⟨b, hab⟩ := ha
  exact (h.lt_counts hab).1

theorem Matches.lt_right {κ : Counterparts} {w w' : World} (h : w.Matches κ w') {k : Kind} {b : Nat}
    (hb : κ.right.ids k b) : b < w'.count k := by
  obtain ⟨a, hab⟩ := hb
  exact (h.lt_counts hab).2

/-- What has nothing to do with a region does not open it. -/
theorem Closed.kept {V D : Region} {w v : World} (h : w.Closed D) (hVD : V.Apart D) (hs : w.Spares V v) : v.Closed D := by
  refine ⟨fun k a b hab => ?_, fun s hr => ?_, h.right_unique, h.left_unique⟩
  · obtain ⟨hD, rfl⟩ := hab
    rw [hs.entries k a (h.lt hD) fun hV => hVD.ids k a hV hD]
    exact h.entries k a a ⟨hD, rfl⟩
  · by_cases hw : V.writes s
    · exact (hVD.writes s hw hr).matches_self _ _
    · rw [hs.slots s hw]
      exact h.slots s hr

/-- What has happened in a region is not seen by what has nothing to do with it. -/
theorem Matches.spared {κ : Counterparts} {D : Region} {w w' v : World} (h : w.Matches κ w') (hD : κ.left.Apart D)
    (hs : w.Spares D v) : v.Matches κ w' := by
  refine ⟨fun k a b hab => ?_, fun s hr => ?_, h.right_unique, h.left_unique⟩
  · rw [hs.entries k a (h.lt_left ⟨b, hab⟩) (hD.ids k a ⟨b, hab⟩)]
    exact h.entries k a b hab
  · rw [hs.slots s fun hw => hD.reads s hw hr]
    exact h.slots s hr

/-- Worlds go on matching when the second one changes in a region that has nothing to do with it. -/
theorem Matches.spared' {κ : Counterparts} {D : Region} {w w' v' : World} (h : w.Matches κ w') (hD : κ.right.Apart D)
    (hs : w'.Spares D v') : w.Matches κ v' := by
  refine ⟨fun k a b hab => ?_, fun s hr => ?_, h.right_unique, h.left_unique⟩
  · rw [hs.entries k b (h.lt_right ⟨a, hab⟩) (hD.ids k b ⟨a, hab⟩)]
    exact h.entries k a b hab
  · rw [hs.slots s fun hw => hD.reads s hw hr]
    exact h.slots s hr

/-! ## Polls in vain -/

/-- Nothing has changed that code could see. Who awaits an operation may have changed, and who waits for what. -/
structure Undisturbed (w v : World) : Prop where
  tokens : v.tokens = w.tokens
  operations : v.operations.map (fun x => (x.fired, x.hooks)) = w.operations.map fun x => (x.fired, x.hooks)
  cells : v.cells = w.cells
  slots : ∀ s, v.slot s = w.slot s

/-- What goes by a name matches what it has matched. -/
theorem Undisturbed.entry {w v : World} (h : w.Undisturbed v) {k : Kind} {i : Nat} {x : k.Entry} (hx : w.entry k i = some x) :
    ∃ y, v.entry k i = some y ∧ ∀ κ z, (k.Matches κ x z → k.Matches κ y z) ∧ (k.Matches κ z x → k.Matches κ z y) := by
  cases k with
  | token => exact ⟨x, (congrArg (·[i]?) h.tokens).trans hx, fun _ _ => ⟨id, id⟩⟩
  | operation =>
    have hx' : w.operations[i]? = some x := hx
    have hget := congrArg (·[i]?) h.operations
    simp only [Array.getElem?_map, hx', Option.map_some] at hget
    obtain ⟨y, hy, heq⟩ := Option.map_eq_some_iff.mp hget
    obtain ⟨hfired, hhooks⟩ := Prod.mk.inj heq
    exact ⟨y, hy, fun _ _ => ⟨fun hz => ⟨hfired.trans hz.fired, hhooks ▸ hz.hooks⟩,
      fun hz => ⟨hz.fired.trans hfired.symm, hhooks ▸ hz.hooks⟩⟩⟩
  | cell => exact ⟨x, (congrArg (·[i]?) h.cells).trans hx, fun _ _ => ⟨id, id⟩⟩

/-- Worlds go on matching when nothing changes in the first one that code could see. -/
theorem Matches.undisturbed {κ : Counterparts} {w w' v : World} (h : w.Matches κ w') (hv : w.Undisturbed v) :
    v.Matches κ w' := by
  refine ⟨fun k a b hab => ?_, fun s hr => ?_, h.right_unique, h.left_unique⟩
  · obtain ⟨x, x', hx, hx', hxx⟩ := h.entries k a b hab
    obtain ⟨y, hy, hsame⟩ := hv.entry hx
    exact ⟨y, x', hy, hx', (hsame κ x').1 hxx⟩
  · rw [hv.slots s]
    exact h.slots s hr

/-- Worlds go on matching when nothing changes in the second one that code could see. -/
theorem Matches.undisturbed' {κ : Counterparts} {w w' v' : World} (h : w.Matches κ w') (hv : w'.Undisturbed v') :
    w.Matches κ v' := by
  refine ⟨fun k a b hab => ?_, fun s hr => ?_, h.right_unique, h.left_unique⟩
  · obtain ⟨x, x', hx, hx', hxx⟩ := h.entries k a b hab
    obtain ⟨y, hy, hsame⟩ := hv.entry hx'
    exact ⟨x, y, hx, hy, (hsame κ x).2 hxx⟩
  · rw [hv.slots s]
    exact h.slots s hr

/-! ## What has nothing to do with a region -/

/-- A region is closed, and what has the names `V` has nothing to do with it. -/
structure Beyond (V : Region) (w : World) (D : Region) : Prop where
  closed : w.Closed D
  apart : V.Apart D

namespace Beyond

variable {κ : Counterparts} {V D : Region} {w w' v v' : World}

/-- A region is closed as long as nothing changes. -/
theorem undisturbed (h : w.Beyond V D) (hv : w.Undisturbed v) : v.Beyond V D :=
  ⟨(h.closed.undisturbed hv).undisturbed' hv, h.apart⟩

/-- A region stays closed, and apart, when those who have nothing to do with it have made a step. -/
theorem stepped (h : w.Beyond κ.left D) (hs : InStep κ w w' v v') : v.Beyond (κ.grown w w' v).left D where
  closed := h.closed.kept h.apart hs.spares
  apart := by
    refine ⟨fun k a ha hD => ?_, h.apart.reads, h.apart.writes⟩
    obtain ⟨b, hab | ⟨hle, -⟩⟩ := ha
    · exact h.apart.ids k a ⟨b, hab⟩ hD
    · exact absurd (h.closed.lt hD) (Nat.not_lt.mpr hle)

/-- A region stays beyond what the second run names while both go on in step. -/
theorem stepped' (h : w'.Beyond κ.right D) (hs : InStep κ w w' v v') : v'.Beyond (κ.grown w w' v).right D where
  closed := h.closed.kept h.apart hs.spares'
  apart := by
    refine ⟨fun k b hb hD => ?_, h.apart.reads, h.apart.writes⟩
    obtain ⟨a, hab | ⟨hle, -, heq⟩⟩ := hb
    · exact h.apart.ids k b ⟨a, hab⟩ hD
    · have := h.closed.lt hD
      omega

/-- A token of a closed region trips: nothing else changes, and the region is closed with what has been made. -/
theorem tripped (h : w.Beyond V D) (hV : ∀ k i, V.ids k i → i < w.count k) {t : TokenId} (ht : D.ids .token t) :
    w.Spares D (w.interrupt t) ∧ (w.interrupt t).Beyond V (D.grown w (w.interrupt t)) := by
  have hself : D.diagonal.ids .token t t := ⟨ht, rfl⟩
  have hstep := interrupt_inStep h.closed hself
  have hspares := hstep.spares
  have hsame := hstep.same
  rw [Region.left_diagonal] at hspares
  rw [Region.diagonal_grown] at hsame
  refine ⟨hspares, hsame, fun k i hi hD => ?_, h.apart.reads, h.apart.writes⟩
  rcases hD with hD | ⟨hle, -⟩
  · exact h.apart.ids k i hi hD
  · exact absurd (hV k i hi) (Nat.not_lt.mpr hle)

end Beyond

end World

end Interruptible
