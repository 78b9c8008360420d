import Interruptible.Proofs.Machine.Interruption

/-!
# What an effect comes to

An interpreter evaluates an effect above the frames that are pending at its start. These are retained while it does so
(`Process.Above`), and the effect has come to its outcome when the first of them is about to be popped (`Process.Run.comes`).
An interpreter that settles has come to the outcome of every effect that it has started, and that outcome is an exit if and only
if interruption has not been noticed before (`Process.Run.fate`). An effect that is run as a finalizer comes to its exit, whatever
happens to the interpreter that waits for it (`Process.Run.finalizer`).
-/

namespace Interruptible

/-- An interpreter is at work above some of its frames: the first of them is not about to be popped. -/
def Process.Above (retained : List Frame) (p : Process) : Prop :=
  ∃ above, p.frames = above ++ retained ∧ (above = [] → ∀ m o, p ≠ .popping m o)

/-- The exit that an outcome stands for, unless it is interruption. -/
def Outcome.exit? : Outcome → Option (Exit Value Payload)
  | .value p => some (.success p)
  | .failure c => some (.failure c)
  | .interruption => none

variable {retained : List Frame}

namespace Process.Above

variable {p : Process}

theorem unsettled (hp : p.Above retained) (hr : retained ≠ []) : p.exit? = none := by
  obtain ⟨above, hf, -⟩ := hp
  refine exit?_eq_none fun e he => ?_
  rw [he] at hf
  exact hr (List.append_eq_nil_iff.mp hf.symm).2

/-- An interpreter that is about to take a node is at work above its frames. -/
theorem next {m : Interpreter} {n : Node} (hf : m.frames.frames = retained) : (Process.next m n).Above retained :=
  ⟨[], hf, fun _ _ _ h => by cases h⟩

/-- An interpreter that is about to pop the first of some frames is not at work above them. -/
theorem not_popping {m : Interpreter} {o : Outcome} (hf : m.frames.frames = retained) :
    ¬ (Process.popping m o).Above retained := by
  rintro ⟨above, habove, hpop⟩
  have hnil : above = [] := List.append_left_eq_self.mp (habove.symm.trans hf)
  exact hpop hnil m o rfl

/-- An interpreter with some frames is at work above the last of them, or about to pop the first of these. -/
theorem or_popping {above : List Frame} (hf : p.frames = above ++ retained) :
    p.Above retained ∨ ∃ m o, p = .popping m o ∧ m.frames.frames = retained := by
  by_cases h : above = [] ∧ ∃ m o, p = .popping m o
  · obtain ⟨rfl, m, o, rfl⟩ := h
    exact .inr ⟨m, o, rfl, hf⟩
  · exact .inl ⟨above, hf, fun ha m o hp => h ⟨ha, m, o, hp⟩⟩

/-- A turn leaves an interpreter at work above the same frames, or brings it to the first of them. -/
theorem turn (hp : p.Above retained) (hr : retained ≠ []) (w : World) :
    (p.turn w).process.Above retained ∨
      ∃ m o, (p.turn w).process = .popping m o ∧ m.frames.frames = retained := by
  have hshift := p.turn_shift w (hp.unsettled hr)
  obtain ⟨above, hf, hpop⟩ := hp
  have popped : ∀ {f fs}, .popped f ∈ p.frameEvents w → p.frames = f :: fs → ∃ above', fs = above' ++ retained := by
    intro f fs hev hfs
    obtain ⟨m, o, rfl⟩ := popping_of_popped hev
    cases above with
    | nil => exact absurd rfl (hpop rfl m o)
    | cons a above => exact ⟨above, (List.cons.inj (hfs.symm.trans hf)).2⟩
  generalize p.frameEvents w = events at hshift popped
  cases hshift with
  | idle _ _ hf' => exact or_popping (hf'.trans hf)
  | work _ _ _ _ hf' => exact or_popping (hf'.trans hf)
  | finish _ _ _ hf' => exact or_popping (hf'.trans hf)
  | push f _ _ hf' =>
    have hfs : (p.turn w).process.frames = (f :: above) ++ retained := by rw [hf', hf]; rfl
    exact or_popping hfs
  | pop f _ _ _ hf' =>
    obtain ⟨above', hfs⟩ := popped List.mem_cons_self hf'
    exact or_popping hfs
  | start n _ _ _ _ _ hf' =>
    obtain ⟨above', hfs⟩ := popped List.mem_cons_self hf'
    exact or_popping hfs

end Process.Above

/-- A run of an interpreter that is at work above some frames: it still is, or it has come to the first of them with an outcome
and goes on from there. What nobody changes meanwhile holds at that moment. -/
theorem Process.Run.comes {R : World → World → Prop} {I : World → Prop} (hI : ∀ a b, R a b → I a → I b) {p q : Process}
    {w v : World} {h : History} (run : Run R p w h q v) (hp : p.Above retained) (hr : retained ≠ [])
    (ht : ∀ y ∈ h, y.1.Above retained → I y.2 → I (y.1.turn y.2).world) (hw : I w) :
    ((∀ y ∈ h, y.1.Above retained) ∧ q.exit? = none ∧ I v) ∨
      ∃ h₁ h₂ m o w', h = h₁ ++ h₂ ∧ (∀ y ∈ h₁, y.1.Above retained) ∧ m.frames.frames = retained ∧ I w' ∧
        Run R p w h₁ (.popping m o) w' ∧ Run R (.popping m o) w' h₂ q v := by
  induction run with
  | done p w => exact .inl ⟨List.forall_mem_nil _, hp.unsettled hr, hw⟩
  | @turn p q w v h hx run ih =>
    have hw' := ht (p, w) List.mem_cons_self hp hw
    rcases hp.turn hr w with habove | ⟨m, o, hpop, hf⟩
    · rcases ih habove (fun y hy => ht y (List.mem_cons_of_mem _ hy)) hw' with
        ⟨hall, hq, hv⟩ | ⟨h₁, h₂, m, o, w', rfl, hall, hf, hi, run₁, run₂⟩
      · exact .inl ⟨List.forall_mem_cons.mpr ⟨hp, hall⟩, hq, hv⟩
      · exact .inr ⟨(p, w) :: h₁, h₂, m, o, w', rfl, List.forall_mem_cons.mpr ⟨hp, hall⟩, hf, hi, .turn hx run₁, run₂⟩
    · rw [hpop] at run
      refine .inr ⟨[(p, w)], h, m, o, (p.turn w).world, rfl, fun y hy => ?_, hf, hw', ?_, run⟩
      · rw [List.mem_singleton.mp hy]
        exact hp
      · rw [← hpop]
        exact .one w hx
  | moved hm _ ih =>
    rcases ih hp ht (hI _ _ hm hw) with hall | ⟨h₁, h₂, m, o, w', heq, hall, hf, hi, run₁, run₂⟩
    · exact .inl hall
    · exact .inr ⟨h₁, h₂, m, o, w', heq, hall, hf, hi, .moved hm run₁, run₂⟩

/-- What an interpreter has noticed by the end of a run that has not settled. -/
theorem Process.Run.noticing {R : World → World → Prop} {p q : Process} {w v : World} {h since : History}
    (run : Run R p w h q v) (hp : p.Noticing since) (hq : q.exit? = none) : q.Noticing (since ++ h) := by
  induction run generalizing since with
  | done => rwa [List.append_nil]
  | @turn p q w v h _ run ih =>
    have hx : (p.turn w).process.exit? = none := by
      cases hx : (p.turn w).process.exit? with
      | none => rfl
      | some e =>
        obtain ⟨-, rfl⟩ := run.of_settled (exit?_eq_some hx)
        nomatch hq
    have := ih (hp.turn hx) hq
    rwa [List.append_assoc] at this
  | moved _ _ ih => exact ih hp hq

/-! ## Effects that come to an exit, and effects that do not -/

/-- In this turn an effect that is evaluated under some frames has come to an exit. -/
def Process.ComesTo (retained : List Frame) (e : Exit Value Payload) (p : Process) : Prop :=
  ∃ m o, p = .popping m o ∧ m.frames.frames = retained ∧ o.exit? = some e

/-- What becomes of an effect that is to be evaluated under some frames, told by the turns of the interpreter. -/
inductive History.Fate (retained : List Frame) (n : Node) : History → Prop where
  /-- It is evaluated to an exit, and interruption is not noticed before that. -/
  | completed {h₁ h₂ h₃ : History} {m : Interpreter} {w : World} {z : Process × World} {e : Exit Value Payload}
      (start : m.frames.frames = retained) (above : ∀ y ∈ h₂, y.1.Above retained) (ends : z.1.ComesTo retained e)
      (unnoticed : ∀ y ∈ h₁ ++ (.next m n, w) :: h₂, ¬ y.1.Notices y.2) :
      Fate retained n (h₁ ++ (.next m n, w) :: h₂ ++ z :: h₃)
  /-- Interruption is noticed, and it never comes to an exit. -/
  | cutShort {h₁ h₂ : History} {y : Process × World} (noticed : y.1.Notices y.2)
      (never : ∀ z ∈ h₁ ++ y :: h₂, ∀ e, ¬ z.1.ComesTo retained e) : Fate retained n (h₁ ++ y :: h₂)

namespace Process

variable {p : Process} {e : Exit Value Payload}

theorem not_comesTo_of_above (hp : p.Above retained) : ¬ p.ComesTo retained e := by
  rintro ⟨m, o, rfl, hf, -⟩
  exact Above.not_popping hf hp

theorem not_comesTo_of_interrupted (hp : p.Interrupted) : ¬ p.ComesTo retained e := by
  rintro ⟨m, o, rfl, -, ho⟩
  cases o with
  | interruption => nomatch ho
  | _ => exact hp

end Process

/-- A turn before the start of the effect. -/
theorem History.Fate.cons {n : Node} {h : History} (hf : h.Fate retained n) {y : Process × World}
    (hn : ¬ y.1.Notices y.2) (he : ∀ e, ¬ y.1.ComesTo retained e) : History.Fate retained n (y :: h) := by
  cases hf with
  | @completed h₁ h₂ h₃ m w z e start above ends unnoticed =>
    show History.Fate retained n ((y :: h₁) ++ (.next m n, w) :: h₂ ++ z :: h₃)
    exact .completed start above ends (List.forall_mem_cons.mpr ⟨hn, unnoticed⟩)
  | @cutShort h₁ h₂ z noticed never =>
    show History.Fate retained n ((y :: h₁) ++ z :: h₂)
    exact .cutShort noticed (List.forall_mem_cons.mpr ⟨he, never⟩)

/-- An effect that an interpreter starts to evaluate, by the time it settles. -/
theorem Process.Run.fate {R : World → World → Prop} {m : Interpreter} {n : Node} {w v : World} {h : History}
    {x : Exit Value Payload} (run : Run R (.next m n) w h (.settled x) v) (hf : m.frames.frames = retained)
    (hr : retained ≠ []) : h.Fate retained n := by
  have hp : (Process.next m n).Above retained := .next hf
  rcases run.comes (I := fun _ => True) (fun _ _ _ _ => trivial) hp hr (fun _ _ _ _ => trivial) trivial with
    ⟨-, hq, -⟩ | ⟨h₁, h₂, m', o, w', rfl, habove, hf', -, run₁, run₂⟩
  · nomatch hq
  obtain ⟨w₂, h₃, rfl, -, run₃⟩ := run₂.uncons (I := fun _ => True) (fun _ _ _ _ => trivial) rfl nofun trivial
  rcases run₁.starts rfl with ⟨-, hq⟩ | ⟨w₁, h₁', rfl, -⟩
  · nomatch hq
  have hstart : Noticing [] (.next m n) := ⟨fun h => h.elim, fun _ => List.forall_mem_nil _⟩
  have hnoticing := run₁.noticing hstart rfl
  rw [List.nil_append] at hnoticing
  have exits : ∀ e, o.exit? = some e → ¬ (Process.popping m' o).Interrupted →
      History.Fate retained n ((.next m n, w₁) :: h₁' ++ (.popping m' o, w₂) :: h₃) := by
    intro e ho hi
    show History.Fate retained n ([] ++ (.next m n, w₁) :: h₁' ++ (.popping m' o, w₂) :: h₃)
    exact .completed hf (fun y hy => habove y (List.mem_cons_of_mem _ hy)) ⟨m', o, rfl, hf', ho⟩ (hnoticing.2 hi)
  cases o with
  | value p => exact exits _ rfl id
  | failure c => exact exits _ rfl id
  | interruption =>
    obtain ⟨y, hy, hn⟩ := hnoticing.1 trivial
    obtain ⟨h₄, h₅, hsplit⟩ := List.append_of_mem hy
    have never : ∀ z ∈ (Process.next m n, w₁) :: h₁' ++ (.popping m' .interruption, w₂) :: h₃, ∀ e, ¬ z.1.ComesTo retained e := by
      intro z hz e
      rcases List.mem_append.mp hz with hz | hz
      · exact not_comesTo_of_above (habove z hz)
      · refine not_comesTo_of_interrupted ?_
        exact run₂.throughout (P := Process.Interrupted) (fun q v _ hq => turn_interrupted hq v) trivial z hz
    rw [hsplit, List.append_assoc, List.cons_append] at never ⊢
    exact .cutShort hn never

/-- A finalizer runs to its exit, and until then the interpreter that waits for it does nothing else. -/
theorem Process.Run.finalizer {R : World → World → Prop} {m : Interpreter} {o : Outcome} {child : Process} {w v : World}
    {h : History} {x : Exit Value Payload} (run : Run R (.finalizing m o child) w h (.settled x) v) :
    ∃ h₁ u e h₂, h = h₁ ++ (.finalizing m o (.settled e), u) :: h₂ ∧
      (∀ y ∈ h₁, ∃ c, y.1 = .finalizing m o c ∧ c.exit? = none) ∧ Traced (History.turns h₁) child (.settled e) := by
  suffices H : ∀ {p q : Process} {w v : World} {h : History}, Run R p w h q v → ∀ {child : Process},
      p = .finalizing m o child → q = .settled x →
        ∃ h₁ u e h₂, h = h₁ ++ (.finalizing m o (.settled e), u) :: h₂ ∧
          (∀ y ∈ h₁, ∃ c, y.1 = .finalizing m o c ∧ c.exit? = none) ∧ Traced (History.turns h₁) child (.settled e) from
    H run rfl rfl
  intro p q w v h run
  induction run with
  | done =>
    rintro child rfl hq
    nomatch hq
  | @turn p q w v h _ run ih =>
    rintro child rfl hq
    cases hx : child.exit? with
    | some e =>
      obtain rfl := exit?_eq_some hx
      exact ⟨[], w, e, h, rfl, List.forall_mem_nil _, .refl _⟩
    | none =>
      obtain ⟨h₁, u, e, h₂, rfl, hwaits, w', hc, v', runc, hsub⟩ := ih (by rw [turn_finalizing m o hx]) hq
      obtain ⟨rest, hturns⟩ := turns_eq hx w
      refine ⟨(.finalizing m o child, w) :: h₁, u, e, h₂, rfl, List.forall_mem_cons.mpr ⟨⟨child, rfl, hx⟩, hwaits⟩, ?_⟩
      refine ⟨w, (child, w) :: hc, v', .turn hx (.moved trivial runc), ?_⟩
      have hsame : History.turns ((.finalizing m o child, w) :: h₁) =
          (.finalizing m o child, w) :: (child.turns w ++ History.turns h₁) := by
        cases child with
        | settled e => nomatch hx
        | _ => rfl
      rw [hsame, hturns, List.cons_append]
      exact .cons _ (.cons_cons _ (hsub.trans (List.sublist_append_right _ _)))
  | moved _ _ ih => exact ih

end Interruptible
