import Interruptible.Proofs.Machine.Frames

/-!
# Interpreters inside interpreters

Finalizers and the branches of groups are interpreters of their own. Every interpreter that is found inside another one in
the course of a run has come from its own start by turns that were taken in that run, in their order (`Process.Run.nested`).
To such an interpreter the other ones are part of the surroundings: between two of its turns its world changes as it may.
-/

namespace Interruptible

/-- The process of a branch. -/
def Branch.process : Branch → Process
  | .running p => p
  | .finished e => .settled e

/-- The interpreters that an interpreter waits for. -/
def Process.parts : Process → List Process
  | .finalizing _ _ child => [child]
  | .joining _ _ seen rest => (seen ++ rest).map Branch.process
  | _ => []

/-- `q` is `p` or one of the interpreters that `p` waits for, directly or not. -/
inductive Process.Within (q : Process) : Process → Prop where
  | self : Within q q
  | part {r p : Process} (hr : r ∈ p.parts) (h : Within q r) : Within q p

/-- The turns that one turn of a process consists of: its own and that of the interpreter that it waits for. -/
def Process.turns : Process → World → History
  | .settled _, _ => []
  | .finalizing m o child, w => (.finalizing m o child, w) :: child.turns w
  | .joining m g seen (.running q :: rest), w => (.joining m g seen (.running q :: rest), w) :: q.turns w
  | .joining m g seen (.finished e :: rest), w => [(.joining m g seen (.finished e :: rest), w)]
  | .joining m g seen [], w => [(.joining m g seen [], w)]
  | .next m n, w => [(.next m n, w)]
  | .counted m n, w => [(.counted m n, w)]
  | .popping m o, w => [(.popping m o, w)]
  | .awaiting m a, w => [(.awaiting m a, w)]

/-- A process that has not settled takes a turn of its own first. -/
theorem Process.turns_eq {p : Process} (hp : p.exit? = none) (w : World) : ∃ rest, p.turns w = (p, w) :: rest := by
  match p with
  | .next _ _ | .counted _ _ | .popping _ _ | .finalizing _ _ _ | .awaiting _ _ | .joining _ _ _ [] => exact ⟨_, rfl⟩
  | .joining _ _ _ (.running _ :: _) | .joining _ _ _ (.finished _ :: _) => exact ⟨_, rfl⟩
  | .settled _ => nomatch hp

/-- The turns of all interpreters in the course of a run. -/
def History.turns (h : History) : History := h.flatMap fun x => x.1.turns x.2

/-- Nothing is said about the surroundings. -/
def World.Anyhow (_ _ : World) : Prop := True

/-- A process has come from another one by turns that are found among others. -/
def Process.Traced (among : History) (p q : Process) : Prop :=
  ∃ (w : World) (h : History) (v : World), Run World.Anyhow p w h q v ∧ h.Sublist among

/-- A process has come from its own start by turns that are found among others. -/
def Process.Begun (among : History) (q : Process) : Prop :=
  ∃ (n : Node) (env : Environment) (t : TokenId) (k : Nat), Traced among (.start n env t k) q

namespace Process.Traced

variable {among more : History} {p q : Process}

theorem refl (p : Process) : Traced among p p := ⟨default, [], default, .done _ _, List.nil_sublist _⟩

theorem mono (hq : Traced among p q) (hm : among.Sublist more) : Traced more p q := by
  obtain ⟨w, h, v, run, hs⟩ := hq
  exact ⟨w, h, v, run, hs.trans hm⟩

/-- A turn of a process, taken among others. -/
theorem turn (hq : Traced among p q) (hp : q.exit? = none) (w : World) (rest : History) :
    Traced (among ++ (q, w) :: rest) p (q.turn w).process := by
  obtain ⟨w₀, h, v, run, hs⟩ := hq
  refine ⟨w₀, h ++ [(q, w)], _, (run.moved_after trivial).snoc hp, ?_⟩
  exact hs.append (List.cons_sublist_cons.mpr (List.nil_sublist _))

end Process.Traced

namespace Process.Begun

variable {among more : History} {q : Process}

/-- A process that has not begun has come from its own start. -/
theorem start (n : Node) (env : Environment) (t : TokenId) (k : Nat) : Begun among (.start n env t k) :=
  ⟨n, env, t, k, .refl _⟩

theorem mono (hq : Begun among q) (hm : among.Sublist more) : Begun more q := by
  obtain ⟨n, env, t, k, hq⟩ := hq
  exact ⟨n, env, t, k, hq.mono hm⟩

/-- A process that takes a turn has come from its start by one turn more. -/
theorem turn (hq : Begun among q) (hp : q.exit? = none) (w : World) (rest : History) :
    Begun (among ++ (q, w) :: rest) (q.turn w).process := by
  obtain ⟨n, env, t, k, hq⟩ := hq
  exact ⟨n, env, t, k, hq.turn hp w rest⟩

end Process.Begun

/-- All interpreters inside a process have come from their starts by turns found among others. -/
def Process.AllBegun (among : History) (p : Process) : Prop := ∀ q, Within q p → Begun among q

namespace Process.AllBegun

variable {among more : History} {p : Process}

/-- The process itself has come from its start. -/
theorem self (h : AllBegun among p) : p.Begun among := h p .self

/-- What a part of a process consists of has come from its start. -/
theorem part (h : AllBegun among p) {r : Process} (hr : r ∈ p.parts) : AllBegun among r :=
  fun q hq => h q (.part hr hq)

/-- All interpreters inside a process have come from their starts if it has, and those inside its parts. -/
theorem of_parts (hp : p.Begun among) (h : ∀ r ∈ p.parts, AllBegun among r) : AllBegun among p := by
  intro q hq
  cases hq with
  | self => exact hp
  | part hr hq => exact h _ hr q hq

theorem mono (h : AllBegun among p) (hm : among.Sublist more) : AllBegun more p := fun q hq => (h q hq).mono hm

/-- A process that has not begun has no parts. -/
theorem start (n : Node) (env : Environment) (t : TokenId) (k : Nat) : AllBegun among (.start n env t k) :=
  of_parts (.start n env t k) fun _ hr => nomatch hr

end Process.AllBegun

/-! ## One turn -/

namespace Interpreter

/-- A finalizer that starts when a frame is popped has not begun. -/
theorem pop_parts (m : Interpreter) (o : Outcome) (w : World) :
    ∀ r ∈ (m.pop o w).process.parts, ∃ n env t k, r = .start n env t k := by
  intro r hr
  unfold pop at hr
  split at hr
  · nomatch hr
  · split at hr
    · exact ⟨_, _, _, _, List.mem_singleton.mp hr⟩
    all_goals nomatch hr

/-- The branches of a group that starts when a node is taken have not begun. -/
theorem take_parts (m : Interpreter) (n : Node) (w : World) :
    ∀ r ∈ (m.take n w).process.parts, ∃ n env t k, r = .start n env t k := by
  intro r hr
  have h := m.take_taken n w
  generalize (m.take n w).process = p at h hr
  cases h with
  | joining children g =>
    obtain ⟨b, hb, rfl⟩ := List.mem_map.mp hr
    obtain ⟨n, _, rfl⟩ := List.mem_map.mp hb
    exact ⟨_, _, _, _, rfl⟩
  | _ => nomatch hr

/-- An interpreter whose finalizer has settled has no parts. -/
theorem finalized_parts (m : Interpreter) (o : Outcome) (e : Exit Value Payload) (w : World) :
    (m.finalized o e w).process.parts = [] := by
  cases e with
  | success p => rfl
  | failure c => cases o <;> rfl

/-- An interpreter that polls a future has no parts afterwards. -/
theorem pollAwaited_parts (m : Interpreter) (a : Awaited) (w : World) : (m.pollAwaited a w).process.parts = [] := by
  unfold pollAwaited
  split
  · rfl
  · split <;> rfl

/-- An interpreter that has joined its group has no parts. -/
theorem joined_parts (m : Interpreter) (g : Group) (exits : List (Exit Value Payload)) (w : World) :
    (m.joined g exits w).process.parts = [] := by
  rw [joined_eq]
  split
  · rfl
  · split <;> rfl

/-- At the end of a round, the parts of a group are its branches, if they are not joined. -/
theorem endRound_parts (m : Interpreter) (g : Group) (branches : List Branch) (w : World) :
    ∀ r ∈ (m.endRound g branches w).process.parts, r ∈ branches.map Branch.process := by
  intro r hr
  rw [endRound_eq] at hr
  split at hr
  · rw [joined_parts] at hr
    nomatch hr
  · exact hr

end Interpreter

/-- After a turn of a branch its group waits for what has become of that branch and for the others. -/
theorem Process.joining_parts (m : Interpreter) (g : Group) (seen rest : List Branch) (p : Process) (w : World) :
    ∀ r ∈ (turn (.joining m g seen (.running p :: rest)) w).process.parts,
      r = (p.turn w).process ∨ r ∈ (seen ++ rest).map Branch.process := by
  intro r hr
  simp only [Process.turn] at hr
  split at hr
  · rename_i e _ he
    rw [he]
    simpa [Process.parts, Branch.process, or_left_comm] using hr
  all_goals simpa [Process.parts, Branch.process, or_left_comm] using hr

/-- After a turn of a branch all interpreters inside the group have begun. -/
theorem Process.AllBegun.turn_branch {m : Interpreter} {g : Group} {seen rest : List Branch} {q : Process} {among : History}
    (h : (joining m g seen (.running q :: rest)).AllBegun among) (w : World)
    (ih : q.AllBegun among → (q.turn w).process.AllBegun (among ++ q.turns w)) :
    (turn (.joining m g seen (.running q :: rest)) w).process.AllBegun
      (among ++ (joining m g seen (.running q :: rest)).turns w) := by
  have hturns : (joining m g seen (.running q :: rest)).turns w =
      (.joining m g seen (.running q :: rest), w) :: q.turns w := by
    simp only [Process.turns]
  rw [hturns]
  refine .of_parts (h.self.turn rfl w _) fun r hr => ?_
  rcases joining_parts m g seen rest q w r hr with rfl | hr
  · have hq : q.AllBegun among := h.part (List.mem_map.mpr ⟨.running q, by simp, rfl⟩)
    exact (ih hq).mono ((List.Sublist.refl _).append (List.sublist_cons_self _ _))
  · refine (h.part (r := r) ?_).mono (List.sublist_append_left _ _)
    simp only [List.map_append, List.mem_append] at hr
    simp only [Process.parts, List.map_append, List.map_cons, List.mem_append, List.mem_cons]
    exact hr.imp id Or.inr

/-- After a turn of a finalizer all interpreters inside have begun. -/
theorem Process.AllBegun.turn_finalizer {m : Interpreter} {o : Outcome} {child : Process} {among : History}
    (h : (finalizing m o child).AllBegun among) (w : World) (hc : child.exit? = none)
    (ih : child.AllBegun among → (child.turn w).process.AllBegun (among ++ child.turns w)) :
    (turn (.finalizing m o child) w).process.AllBegun (among ++ (finalizing m o child).turns w) := by
  have hchild : child.AllBegun among := h.part (List.mem_singleton.mpr rfl)
  have hturns : (finalizing m o child).turns w = (.finalizing m o child, w) :: child.turns w := by
    simp only [Process.turns]
  rw [hturns]
  refine .of_parts (h.self.turn rfl w _) fun r hr => ?_
  rw [turn_finalizing m o hc] at hr
  obtain rfl := List.mem_singleton.mp hr
  exact (ih hchild).mono ((List.Sublist.refl _).append (List.sublist_cons_self _ _))

/-- A turn leaves all interpreters inside a process begun. -/
theorem Process.turn_begun (p : Process) (w : World) {among : History} (h : p.AllBegun among) :
    (p.turn w).process.AllBegun (among ++ p.turns w) := by
  have alone : ∀ {q : Process} {v : World}, q.exit? = none → q.Begun among →
      (∀ r ∈ (q.turn v).process.parts, ∃ n env t k, r = .start n env t k) →
        (q.turn v).process.AllBegun (among ++ [(q, v)]) := fun hq hT hparts =>
    .of_parts (hT.turn hq _ []) fun r hr => by
      obtain ⟨n, env, t, k, rfl⟩ := hparts r hr
      exact .start n env t k
  induction p, w using Process.turn.induct with
  | case1 m n w m' hy =>
    refine alone rfl h.self fun r hr => ?_
    rw [Process.turn, if_pos hy] at hr
    exact absurd hr List.not_mem_nil
  | case2 m n w m' hy =>
    refine alone rfl h.self fun r hr => ?_
    rw [Process.turn, if_neg hy] at hr
    exact absurd hr List.not_mem_nil
  | case3 m n w hi =>
    refine alone rfl h.self fun r hr => ?_
    rw [Process.turn, if_pos hi] at hr
    exact absurd hr List.not_mem_nil
  | case4 m n w hi =>
    refine alone rfl h.self fun r hr => ?_
    rw [Process.turn, if_neg hi] at hr
    exact m.take_parts n w r hr
  | case5 m o w => exact alone rfl h.self (m.pop_parts o w)
  | case6 m o e w =>
    refine alone rfl h.self fun r hr => ?_
    simp only [Process.turn, Interpreter.finalized_parts] at hr
    exact absurd hr List.not_mem_nil
  | case7 m o child w hc ih => exact h.turn_finalizer w (exit?_eq_none hc) ih
  | case8 m a w =>
    refine alone rfl h.self fun r hr => ?_
    simp only [Process.turn, Interpreter.pollAwaited_parts] at hr
    exact absurd hr List.not_mem_nil
  | case9 m g seen w =>
    refine .of_parts (h.self.turn rfl w _) fun r hr => (h.part ?_).mono (List.sublist_append_left _ _)
    have := m.endRound_parts g seen.reverse w r hr
    simpa [Process.parts] using this
  | case10 m g seen e rest w =>
    refine .of_parts (h.self.turn rfl w _) fun r hr => (h.part ?_).mono (List.sublist_append_left _ _)
    simpa [Process.turn, Process.parts, or_left_comm] using hr
  | case11 m g seen p rest w t e he ih => exact h.turn_branch w ih
  | case12 m g seen p rest w t hpace hns ih => exact h.turn_branch w ih
  | case13 m g seen p rest w t hpace hns ih => exact h.turn_branch w ih
  | case14 e w => exact h.mono (List.sublist_append_left _ _)

/-- Every interpreter inside a process of a run has come from its own start by turns of that run, in their order. -/
theorem Process.Run.nested {R : World → World → Prop} {n : Node} {env : Environment} {t : TokenId} {k : Nat}
    {w v : World} {h : History} {p q : Process} (run : Run R (.start n env t k) w h p v) (hq : Within q p) :
    Begun h.turns q := by
  have first : AllBegun [] (.start n env t k) := .start n env t k
  suffices H : ∀ {among : History} {p₀ p : Process} {w v : World} {h : History}, Run R p₀ w h p v →
      p₀.AllBegun among → p.AllBegun (among ++ h.turns) from
    H run first q hq
  intro among p₀ p w v h run
  induction run generalizing among with
  | done p w =>
    intro hall
    exact hall.mono (List.sublist_append_left _ _)
  | turn hp _ ih =>
    intro hall
    have := ih (turn_begun _ _ hall)
    simpa [History.turns, List.append_assoc] using this
  | moved _ _ ih => exact ih

end Interruptible
