import Interruptible.Proofs.Machine.Calls
import Interruptible.Proofs.Machine.Frames

/-!
# Polls come to their end

A poll of a process ends after so many turns: the process waits or has settled (`Process.exists_rests`), and from then on a
larger bound on the turns gives the same answer (`Process.poll_of_rests`). An effect may be as deep as it likes, and its callbacks
may build more of it; still it is a tree in which every path comes to an end, and the interpreter works on a part of it. The
induction is on the tree: polls of a node end under all frames under which popping ends, whatever the outcome (`Node.Ends`).
-/

namespace Interruptible

/-- A poll of a process comes to its end within so many turns: the process waits or settles. -/
def Process.Rests : Nat → Process → World → Prop
  | 0, _, _ => False
  | n + 1, p, w =>
    (p.turn w).process.exit? ≠ none ∨ (p.turn w).pace = .waiting ∨ (p.turn w).process.Rests n (p.turn w).world

instance Process.Rests.decidable : (n : Nat) → (p : Process) → (w : World) → Decidable (p.Rests n w)
  | 0, _, _ => isFalse id
  | n + 1, p, w =>
    have := decidable n (p.turn w).process (p.turn w).world
    inferInstanceAs (Decidable (_ ∨ _ ∨ _))

/-- Polls of a process come to their end, whatever the world is like. -/
def Process.Ends (p : Process) : Prop := ∀ w, ∃ n, p.Rests n w

/-- The poll in the course of which a turn was taken comes to its end. -/
def Turn.Ends (r : Turn) : Prop := r.process.exit? ≠ none ∨ r.pace = .waiting ∨ ∃ n, r.process.Rests n r.world

/-- Polls of an interpreter that pops these frames come to their end, whatever the outcome. -/
def Frame.AllEnd (fs : List Frame) : Prop := ∀ (m : Interpreter) (o : Outcome), m.frames.frames = fs → (Process.popping m o).Ends

/-- Polls of an interpreter that takes a node come to their end, if they do when it pops its frames. -/
def Node.Ends (n : Node) : Prop := ∀ m : Interpreter, Frame.AllEnd m.frames.frames → (Process.counted m n).Ends

/-! ## Turns -/

namespace Process

variable {p : Process} {w : World}

/-- A poll whose next turn ends it, or is followed by a poll that ends, comes to its end. -/
theorem rests_of_turn (h : (p.turn w).Ends) : ∃ n, p.Rests n w := by
  rcases h with h | h | ⟨n, h⟩
  · exact ⟨1, .inl h⟩
  · exact ⟨1, .inr (.inl h)⟩
  · exact ⟨n + 1, .inr (.inr h)⟩

/-- Polls of a process end if they do after one turn in every world. -/
theorem ends_of_turn (h : ∀ w, (p.turn w).Ends) : p.Ends := fun w => rests_of_turn (h w)

/-- A turn that leads to a process whose polls end is part of a poll that ends. -/
theorem Ends.turn {r : Turn} (h : r.process.Ends) : r.Ends := .inr (.inr (h _))

/-- The poll of a branch is part of the poll of the interpreter that joins its group. -/
theorem joining_rests {m : Interpreter} {g : Group} {seen rest : List Branch}
    (hrest : ∀ g seen, (joining m g seen rest).Ends) {n : Nat} {q : Process} (h : q.Rests n w) :
    ∃ k, (joining m g seen (.running q :: rest)).Rests k w := by
  induction n generalizing q w with
  | zero => exact h.elim
  | succ n ih =>
    refine rests_of_turn ?_
    simp only [turn]
    split
    · exact (hrest _ _).turn
    · rename_i hpace hns
      rcases h with hx | hw | h
      · exact absurd (exit?_eq_none hns) hx
      · rw [hpace] at hw
        cases hw
      · exact .inr (.inr (ih h))
    · exact (hrest _ _).turn

end Process

namespace Interpreter

variable {m : Interpreter} (hm : Frame.AllEnd m.frames.frames)

include hm

/-- Under frames with which polls end, popping is such a poll. -/
theorem popping_ends (o : Outcome) : (Process.popping m o).Ends := hm m o rfl

/-- A poll that finds the interpreter interrupted ends as popping does. -/
theorem interrupted_ends (w : World) : (m.interrupted w).Ends := (popping_ends hm _).turn

end Interpreter

/-- A node that is about to be counted. -/
theorem Node.Ends.next {n : Node} (h : n.Ends) {m : Interpreter} (hm : Frame.AllEnd m.frames.frames) : (Process.next m n).Ends :=
  Process.ends_of_turn fun w => by
    simp only [Process.turn]
    split
    · exact .inr (.inl rfl)
    · exact (h { m with instructions := m.instructions + 1 } hm).turn

/-- A node is gone into if taking it leads to a poll that ends. -/
theorem Node.Ends.of_take {n : Node} (h : ∀ m : Interpreter, Frame.AllEnd m.frames.frames → ∀ w, (m.take n w).Ends) : n.Ends :=
  fun m hm => Process.ends_of_turn fun w => by
    simp only [Process.turn]
    split
    · exact Interpreter.interrupted_ends hm w
    · exact h m hm w

/-- A failure leads to popping. -/
theorem Node.Ends.fail (c : Cause Value) : (Node.fail c).Ends := .of_take fun _ hm _ => (Interpreter.popping_ends hm _).turn

/-- A success leads to popping. -/
theorem Node.Ends.succeed (p : Payload) : (Node.succeed p).Ends :=
  .of_take fun _ hm _ => (Interpreter.popping_ends hm _).turn

namespace Interpreter

variable {m : Interpreter} (hm : Frame.AllEnd m.frames.frames)

include hm

/-- The poll that calls code back ends if it does for each node the code may give. -/
theorem goOn_ends {a : Action Node} (ha : ∀ n, a.Gives n → n.Ends) (w : World) : (m.goOn a w).Ends :=
  ((guarded_of_gives ha Node.Ends.fail w).next hm).turn

/-! ## Host futures -/

/-- A rejected future leads to popping once its cause is known. -/
theorem goOn_reject_ends (a : Action (Cause Value)) (w : World) : (m.goOn (do return Node.fail (← a)) w).Ends :=
  goOn_ends hm (fun _ hn => by
    obtain ⟨c, rfl⟩ := hn.of_fail
    exact .fail c) w

/-- A poll of an awaited future ends: the future is pending, or it has an answer and frames are popped. -/
theorem awaiting_ends (a : Awaited) : (Process.awaiting m a).Ends :=
  Process.ends_of_turn fun w => by
    simp only [Process.turn, pollAwaited]
    split
    · exact interrupted_ends hm _
    · split
      · exact .inr (.inl rfl)
      · exact ((Node.Ends.succeed _).next hm).turn
      · exact goOn_reject_ends hm _ _
      · exact ((Node.Ends.fail _).next hm).turn

/-- Starting a future ends as polling it does. -/
theorem await_ends (factory : OperationId → Action Future) (onReject : Value → Action (Cause Value)) (w : World) :
    (m.await factory onReject w).Ends := by
  unfold await
  dsimp only
  split
  · exact interrupted_ends hm _
  · split
    · exact (awaiting_ends hm _).turn
    · exact ((Node.Ends.fail _).next hm).turn

/-! ## Finalizers -/

/-- A poll that finds the finalizer settled goes on with popping. -/
theorem finalized_ends (o : Outcome) (e : Exit Value Payload) (w : World) : (m.finalized o e w).Ends := by
  cases e with
  | success p => exact (popping_ends hm o).turn
  | failure c =>
    cases o with
    | value p => exact ((Node.Ends.fail c).next hm).turn
    | failure c' => exact (popping_ends hm _).turn
    | interruption => exact (hm _ _ rfl : (Process.popping { m with suppressed := m.suppressed.andThen c } .interruption).Ends).turn

/-- The poll in which a finalizer has settled ends. -/
theorem finalizing_settled_ends (o : Outcome) (e : Exit Value Payload) : (Process.finalizing m o (.settled e)).Ends :=
  Process.ends_of_turn fun w => finalized_ends hm o e w

/-- The poll of a finalizer is part of the poll of the interpreter that waits for it. -/
theorem finalizing_rests (o : Outcome) {n : Nat} {child : Process} {w : World} (h : child.Rests n w) :
    ∃ k, (Process.finalizing m o child).Rests k w := by
  induction n generalizing child w with
  | zero => exact h.elim
  | succ n ih =>
    cases hc : child.exit? with
    | some e =>
      obtain rfl := Process.exit?_eq_some hc
      exact finalizing_settled_ends hm o e w
    | none =>
      refine Process.rests_of_turn ?_
      rw [Process.turn_finalizing m o hc]
      rcases h with h | h | h
      · obtain ⟨e, he⟩ := Option.ne_none_iff_exists'.mp h
        have heq := Process.exit?_eq_some he
        simp only [heq]
        exact (finalizing_settled_ends hm o e).turn
      · exact .inr (.inl h)
      · exact .inr (.inr (ih h))

/-- The poll of an interpreter that waits for its finalizer ends with the poll of that one. -/
theorem finalizing_ends (o : Outcome) {child : Process} (h : child.Ends) : (Process.finalizing m o child).Ends := fun w => by
  obtain ⟨n, hn⟩ := h w
  exact finalizing_rests hm o hn

/-! ## Groups -/

/-- The end of a round leads to popping, or the group waits. -/
theorem endRound_ends (g : Group) (branches : List Branch) (w : World) : (m.endRound g branches w).Ends := by
  rw [endRound_eq]
  split
  · rw [joined_eq]
    split
    · exact interrupted_ends hm _
    · split
      · exact ((Node.Ends.succeed _).next hm).turn
      · exact ((Node.Ends.fail _).next hm).turn
      · exact interrupted_ends hm _
  · exact .inr (.inl rfl)

/-- A round ends: every branch has its turns one after the other, and each comes to the end of its poll. -/
theorem joining_ends {rest : List Branch} (h : ∀ q, .running q ∈ rest → q.Ends) (g : Group) (seen : List Branch) :
    (Process.joining m g seen rest).Ends := by
  induction rest generalizing g seen with
  | nil => exact Process.ends_of_turn fun w => endRound_ends hm g seen.reverse w
  | cons b rest ih =>
    have hrest : ∀ g seen, (Process.joining m g seen rest).Ends := fun g seen =>
      ih (fun q hq => h q (List.mem_cons_of_mem _ hq)) g seen
    cases b with
    | finished e => exact Process.ends_of_turn fun w => (hrest g _).turn
    | running q =>
      intro w
      obtain ⟨n, hn⟩ := h q List.mem_cons_self w
      exact Process.joining_rests hrest hn

end Interpreter

/-! ## Frames -/

namespace Frame.AllEnd

variable {fs : List Frame}

/-- With no frames left, popping settles the process. -/
theorem nil : AllEnd [] := fun m o hm => Process.ends_of_turn fun w => by
  simp only [Process.turn, Interpreter.pop, FrameStack.pop?_eq_none hm]
  exact .inl (Option.some_ne_none _)

/-- A frame on top of others, given what becomes of it. -/
theorem cons {f : Frame} (h : ∀ (m : Interpreter) (s : FrameStack) (o : Outcome) (w : World), m.frames.pop? = some (f, s) →
    s.frames = fs → (m.pop o w).Ends) : AllEnd (f :: fs) := fun m o hm => by
  obtain ⟨s, hpop, hs⟩ := FrameStack.pop?_eq_some hm
  exact Process.ends_of_turn fun w => h m s o w hpop hs

variable (hfs : AllEnd fs)

include hfs

/-- A continuation that is popped leads to a node that it gives. -/
theorem apply {k : Payload → Action Node} (hk : ∀ p n, (k p).Gives n → n.Ends) : AllEnd (.apply k :: fs) :=
  cons fun m s o w hpop hs => by
    have hm : AllEnd { m with frames := s }.frames.frames := by rwa [hs]
    unfold Interpreter.pop
    rw [hpop]
    cases o with
    | value p => exact Interpreter.goOn_ends hm (hk p) w
    | failure c => exact (Interpreter.popping_ends hm _).turn
    | interruption => exact (Interpreter.popping_ends hm _).turn

/-- A handler that is popped leads to a node that it gives, or its continuation does. -/
theorem fold {recover : Cause Value → Action Node} {k : Payload → Action Node}
    (hr : ∀ c n, (recover c).Gives n → n.Ends) (hk : ∀ p n, (k p).Gives n → n.Ends) : AllEnd (.fold recover k :: fs) :=
  cons fun m s o w hpop hs => by
    have hm : AllEnd { m with frames := s }.frames.frames := by rwa [hs]
    unfold Interpreter.pop
    rw [hpop]
    cases o with
    | value p => exact Interpreter.goOn_ends hm (hk p) w
    | failure c => exact Interpreter.goOn_ends hm (hr c) w
    | interruption => exact (Interpreter.popping_ends hm _).turn

/-- A finalizer that is popped is polled to its end, and frames are popped after it. -/
theorem finalize {n : Node} (hn : n.Ends) : AllEnd (.finalize n :: fs) :=
  cons fun m s o w hpop hs => by
    have hm : AllEnd { m with frames := s }.frames.frames := by rwa [hs]
    have hchild : (Process.start n m.env w.newToken.1 m.interval).Ends := hn.next .nil
    unfold Interpreter.pop
    rw [hpop]
    cases o <;> exact (Interpreter.finalizing_ends hm _ hchild).turn

/-- An environment that is popped is put back, and frames are popped after it. -/
theorem restore (env : Environment) : AllEnd (.restore env :: fs) :=
  cons fun m s o w hpop hs => by
    have hm : AllEnd { m with frames := s, env }.frames.frames := by rwa [hs]
    unfold Interpreter.pop
    rw [hpop]
    cases o <;> exact (Interpreter.popping_ends hm _).turn

end Frame.AllEnd

/-! ## Trees -/

namespace Node

/-- A lazy success leads to popping, whether its thunk succeeds, fails or panics. -/
theorem Ends.succeedLazy (thunk : Action (Except (Cause Value) Payload)) : (succeedLazy thunk).Ends :=
  Ends.of_take fun m hm w => by
    simp only [Interpreter.take]
    split
    · exact ((Ends.succeed _).next hm).turn
    · exact ((Ends.fail _).next hm).turn

/-- A chain leads into its inner node with one frame more. -/
theorem Ends.chain {inner : Node} {k : Payload → Action Node} (h : inner.Ends) (hk : ∀ p n, (k p).Gives n → n.Ends) :
    (chain inner k).Ends :=
  Ends.of_take fun m hm w => by
    have hpush : (Process.next (m.push (.apply k)) inner).Ends := h.next (hm.apply hk)
    cases inner with
    | succeed p => exact Interpreter.goOn_ends hm (hk p) _
    | succeedLazy thunk =>
      simp only [Interpreter.take]
      split
      · exact Interpreter.goOn_ends hm (hk _) _
      · exact ((Ends.fail _).next hm).turn
    | _ => exact hpush.turn

/-- A handled node leads into its inner node with one frame more. -/
theorem Ends.matchCause {inner : Node} {recover : Cause Value → Action Node} {k : Payload → Action Node} (h : inner.Ends)
    (hr : ∀ c n, (recover c).Gives n → n.Ends) (hk : ∀ p n, (k p).Gives n → n.Ends) : (matchCause inner recover k).Ends :=
  Ends.of_take fun _ hm _ => (h.next (hm.fold hr hk)).turn

/-- An ensured node leads into its inner node with one frame more. -/
theorem Ends.ensuring {inner finalizer : Node} (h : inner.Ends) (hf : finalizer.Ends) : (ensuring inner finalizer).Ends :=
  Ends.of_take fun _ hm _ => (h.next (hm.finalize hf)).turn

/-- A node with services leads into its inner node with an environment to be put back. -/
theorem Ends.give {inner : Node} (h : inner.Ends) (env : Environment) : (give inner env).Ends :=
  Ends.of_take fun m hm _ => (h.next (m := { m.push (.restore m.env) with env }) (hm.restore m.env)).turn

/-- A group leads to a round of polls of its branches, each of which ends. -/
theorem Ends.all {children : List Node} (h : ∀ n ∈ children, n.Ends) : (all children).Ends :=
  Ends.of_take fun m hm w => by
    refine (Interpreter.joining_ends hm (fun q hq => ?_) _ _).turn
    obtain ⟨n, hn, hq⟩ := List.mem_map.mp hq
    rw [← Branch.running.inj hq]
    exact (h n hn).next .nil

end Node

mutual
/-- Polls end, whichever node an interpreter works on. -/
theorem Node.ends : (n : Node) → n.Ends
  | .succeed p => .succeed p
  | .succeedLazy thunk => .succeedLazy thunk
  | .fail c => .fail c
  | .interrupt => .of_take fun _ hm _ => Interpreter.interrupted_ends hm _
  | .asks read => .of_take fun m hm _ => Interpreter.goOn_ends hm (Action.ends (read m.env)) _
  | .give inner env => .give inner.ends env
  | .all children => .all (Node.allEnd children)
  | .defer factory => .of_take fun _ hm _ => Interpreter.goOn_ends hm (Action.ends factory) _
  | .liftPromise factory onReject => .of_take fun _ hm _ => Interpreter.await_ends hm factory onReject _
  | .chain inner k => .chain inner.ends fun p => Action.ends (k p)
  | .matchCause inner recover k => .matchCause inner.ends (fun c => Action.ends (recover c)) fun p => Action.ends (k p)
  | .ensuring inner finalizer => .ensuring inner.ends finalizer.ends

/-- The nodes that a callback builds. -/
theorem Action.ends : (a : Action Node) → ∀ n, a.Gives n → n.Ends
  | .pure m, n, h => by
    obtain ⟨w, hw⟩ := h
    rw [← Except.ok.inj hw]
    exact m.ends
  | .panic p, n, h => by
    obtain ⟨w, hw⟩ := h
    nomatch hw
  | .ask c next, n, h => by
    obtain ⟨w, hw⟩ := h
    exact Action.ends (next _) n ⟨_, hw⟩
  | .subscribe t l next, n, h => by
    obtain ⟨w, hw⟩ := h
    exact Action.ends (next _) n ⟨_, hw⟩
  | .register op l next, n, h => by
    obtain ⟨w, hw⟩ := h
    simp only [Action.run] at hw
    split at hw <;> exact Action.ends next n ⟨_, hw⟩

/-- The children of a group. -/
theorem Node.allEnd : (ns : List Node) → ∀ n ∈ ns, n.Ends
  | [], _, h => nomatch h
  | m :: ms, n, h => by
    rcases List.mem_cons.mp h with h | h
    · rw [h]
      exact m.ends
    · exact Node.allEnd ms n h
end

/-! ## Processes -/

/-- Popping comes to its end under all frames. The induction is on the frames. -/
theorem Frame.allEnd (fs : List Frame) : AllEnd fs := by
  induction fs with
  | nil => exact .nil
  | cons f fs ih =>
    cases f with
    | apply k => exact ih.apply fun p => Action.ends (k p)
    | fold recover k => exact ih.fold (fun c => Action.ends (recover c)) fun p => Action.ends (k p)
    | finalize n => exact ih.finalize n.ends
    | restore env => exact ih.restore env

mutual
/-- Polls of every process come to their end. The induction is on the processes inside it. -/
theorem Process.ends : (p : Process) → p.Ends
  | .next _ n => n.ends.next (Frame.allEnd _)
  | .counted m n => n.ends m (Frame.allEnd _)
  | .popping _ o => Interpreter.popping_ends (Frame.allEnd _) o
  | .finalizing _ o child => Interpreter.finalizing_ends (Frame.allEnd _) o child.ends
  | .awaiting _ a => Interpreter.awaiting_ends (Frame.allEnd _) a
  | .joining _ g seen rest => Interpreter.joining_ends (Frame.allEnd _) (Branch.ends rest) g seen
  | .settled _ => fun _ => ⟨1, .inl nofun⟩

/-- The branches of a group. -/
theorem Branch.ends : (bs : List Branch) → ∀ q, .running q ∈ bs → q.Ends
  | [], _, h => nomatch h
  | .running p :: bs, q, h => by
    rcases List.mem_cons.mp h with h | h
    · rw [Branch.running.inj h]
      exact p.ends
    · exact Branch.ends bs q h
  | .finished _ :: bs, q, h => Branch.ends bs q ((List.mem_cons.mp h).resolve_left nofun)
end

namespace Process

/-- Every poll comes to its end. -/
theorem exists_rests (p : Process) (w : World) : ∃ n, p.Rests n w := p.ends w

/-- A poll that has come to its end does not go on if it may take more turns. -/
theorem poll_of_rests {p : Process} {w : World} {n : Nat} (h : p.Rests n w) (k : Nat) : p.poll (n + k) w = p.poll n w := by
  induction n generalizing p w with
  | zero => exact h.elim
  | succ n ih =>
    rw [Nat.add_right_comm]
    unfold Rests at h
    unfold poll
    split
    · rfl
    · rfl
    · rename_i q v hns ht
      rw [ht] at h
      exact ih ((h.resolve_left fun hx => hx (exit?_eq_none fun e he => hns e he)).resolve_left nofun)

end Process

end Interruptible
