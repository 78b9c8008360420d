import Interruptible.Proofs.Machine.FanIn
import Interruptible.Proofs.Machine.Calls
import Interruptible.Proofs.Machine.Ending
import Interruptible.Proofs.Machine.Polls

/-!
# The first round of a group

A group polls its branches one after the other, and it interrupts them after the round in which one of them has failed. So
the failure of a branch takes nothing from the branches after it: each of them goes on to its exit or its first suspension.
A branch that trips the token of the group is another matter. An interrupt node does so at once, within the round, and the
branches that have not begun by then find the token tripped when they are about to take their first node: they end with
interruption, and none of their callbacks is called (`first_round`). The rest of the world is free to do what it likes,
except for tripping that token.
-/

namespace Interruptible

/-- A turn with which the poll of a process is over: the process has settled, or it waits. -/
def Process.RestsAfter (y : Process × World) : Prop :=
  (y.1.turn y.2).process.exit? ≠ none ∨ (y.1.turn y.2).pace = .waiting

/-- A turn in which a token is tripped. -/
def Process.Trips (t : TokenId) (y : Process × World) : Prop :=
  y.2.isInterrupted t = false ∧ (y.1.turn y.2).world.isInterrupted t = true

/-- Whether the next turn ends a round of a group. -/
def Process.endsRound : Process → Bool
  | .joining _ _ _ [] => true
  | _ => false

/-- The turn of the branch in one place that a turn of a group consists of. -/
def Process.branchTurn (i : Nat) : Process → World → History
  | .joining _ _ seen (.running q :: _), w => if seen.length = i then [(q, w)] else []
  | _, _ => []

/-- The turns of the branch in one place, in the course of the turns of its group. -/
def History.branchTurns (h : History) (i : Nat) : History := h.flatMap fun y => y.1.branchTurn i y.2

/-- Whenever a token is found tripped in the course of these turns, it was one of them that has tripped it. -/
def History.Unforced (t : TokenId) (h : History) : Prop :=
  ∀ h₁ y h₂, h = h₁ ++ y :: h₂ → y.2.isInterrupted t = true → ∃ z ∈ h₁, Process.Trips t z

/-- How far the branch in place `i` has come in the first round of its group, when it is the turn of the one in place
`next`. -/
inductive Branch.InRound (R : World → World → Prop) (start : Process) (turns : History) (v : World) (i next : Nat) :
    Branch → Prop where
  /-- It has been polled: it has come to its exit, or to its first suspension. -/
  | polled {w u : World} {q : Process} {earlier : History} {last : Process × World} (hi : i < next)
      (run : Process.Run R start w turns q u) (ht : turns = earlier ++ [last])
      (hbusy : ∀ y ∈ earlier, ¬ Process.RestsAfter y) (hlast : Process.RestsAfter last) :
      InRound R start turns v i next (Branch.ofProcess q)
  /-- It is being polled, and is still busy. -/
  | busy {w : World} {q : Process} (hi : i = next) (run : Process.Run R start w turns q v) (hq : q.exit? = none)
      (hbusy : ∀ y ∈ turns, ¬ Process.RestsAfter y) : InRound R start turns v i next (.running q)
  /-- It has not begun. -/
  | ahead (hi : next < i) (ht : turns = []) : InRound R start turns v i next (.running start)

/-- What the turns of the branches so far mean for a token that nobody else trips, when it is the turn of the branch in place
`next`. -/
structure TrippedInOrder (t : TokenId) (turns : Nat → History) (next : Nat) (v : World) : Prop where
  /-- The branches take their turns in their order. -/
  ordered : ∀ i, next < i → turns i = []
  /-- It is the turns of the branches that trip the token. -/
  tripped : v.isInterrupted t = true ↔ ∃ j, ∃ y ∈ turns j, Process.Trips t y
  /-- No branch finds the token tripped, other than by itself, unless one before it has tripped the token. -/
  unforced : ∀ i, (∀ j < i, ∀ y ∈ turns j, ¬ Process.Trips t y) → (turns i).Unforced t
  /-- After a branch that has tripped the token all others find it tripped. -/
  stopped : ∀ i, (∃ j < i, ∃ y ∈ turns j, Process.Trips t y) → ∀ z ∈ turns i, z.2.isInterrupted t = true

/-- What holds in the course of the first round of a group, whose token is `t`. -/
structure Interpreter.FirstRound (R : World → World → Prop) (m : Interpreter) (children : List Node) (t : TokenId)
    (h : History) (seen rest : List Branch) (v : World) : Prop where
  length : (seen.reverse ++ rest).length = children.length
  shown : ∀ i n (b : Branch), children[i]? = some n → (seen.reverse ++ rest)[i]? = some b →
    b.InRound R (.start n m.env t m.interval) (h.branchTurns i) v i seen.length
  token : TrippedInOrder t h.branchTurns seen.length v

theorem History.branchTurns_concat (h : History) (y : Process × World) (i : Nat) :
    (h ++ [y]).branchTurns i = h.branchTurns i ++ y.1.branchTurn i y.2 := by
  simp [History.branchTurns]

/-! ## Turns with which a branch settles -/

theorem Interpreter.take_unsettled (m : Interpreter) (n : Node) (w : World) : (m.take n w).process.exit? = none := by
  have h := m.take_taken n w
  generalize (m.take n w).process = p at h ⊢
  cases h <;> rfl

/-- A process settles when its interpreter finds no frame to pop. -/
theorem Process.popping_of_settling {p : Process} {w : World} (hp : p.exit? = none)
    (hs : (p.turn w).process.exit? ≠ none) : ∃ m o, p = .popping m o := by
  cases p with
  | next m n => exact absurd (by rw [(turn_next m n w).1]; rfl) hs
  | counted m n =>
    refine absurd ?_ hs
    simp only [turn]
    split
    · rfl
    · exact m.take_unsettled n w
  | popping m o => exact ⟨m, o, rfl⟩
  | finalizing m o child =>
    refine absurd ?_ hs
    cases hc : child.exit? with
    | none =>
      rw [turn_finalizing m o hc]
      rfl
    | some e =>
      obtain rfl := exit?_eq_some hc
      cases e with
      | success p => rfl
      | failure c => cases o <;> rfl
  | awaiting m a => exact absurd (m.pollAwaited_waited a w).unsettled.1 hs
  | joining m g seen rest =>
    rcases rest with _ | ⟨q | e, rest⟩
    · exact absurd (m.endRound_waited g _ w).unsettled.1 hs
    · obtain ⟨g', seen', rest', hp', -⟩ := joining_turn m g seen rest q w
      exact absurd (by rw [hp']; rfl) hs
    · exact absurd rfl hs
  | settled e => exact absurd hp (Option.some_ne_none e)

/-- The turn with which a process settles leaves the world as it was. -/
theorem Process.world_of_settling {p : Process} {w : World} (hp : p.exit? = none) (hs : (p.turn w).process.exit? ≠ none) :
    (p.turn w).world = w := by
  obtain ⟨m, o, rfl⟩ := popping_of_settling hp hs
  simp only [turn, Interpreter.pop] at hs ⊢
  split at hs
  · rfl
  · split at hs <;> exact absurd rfl hs

/-! ## The invariant -/

namespace Branch.InRound

variable {R : World → World → Prop} {start : Process} {turns : History} {v : World} {i next : Nat} {b : Branch}

/-- While others are at work, a branch is where it was. -/
theorem moved (h : b.InRound R start turns v i next) (hm : R v v') : b.InRound R start turns v' i next := by
  cases h with
  | polled hi run ht hbusy hlast => exact .polled hi run ht hbusy hlast
  | busy hi run hq hbusy => exact .busy hi (run.moved_after hm) hq hbusy
  | ahead hi ht => exact .ahead hi ht

/-- A branch whose turn it is not is where it was after a turn of another one. -/
theorem aside (h : b.InRound R start turns v i next) (hi : i ≠ next) : b.InRound R start turns v' i next := by
  cases h with
  | polled hi run ht hbusy hlast => exact .polled hi run ht hbusy hlast
  | busy hi' => exact absurd hi' hi
  | ahead hi ht => exact .ahead hi ht

/-- When the one before it has been polled, it is the turn of a branch that has not begun. -/
theorem advanced (h : b.InRound R start turns v i next) (hi : i ≠ next) (hs : start.exit? = none) :
    b.InRound R start turns v' i (next + 1) := by
  cases h with
  | polled hi run ht hbusy hlast => exact .polled (Nat.lt_succ_of_lt hi) run ht hbusy hlast
  | busy hi' => exact absurd hi' hi
  | ahead hlt ht =>
    subst ht
    by_cases hnext : i = next + 1
    · exact .busy hnext (.done start v') hs fun _ hy => nomatch hy
    · exact .ahead (by omega) rfl

/-- The branch whose turn it is has not finished. -/
theorem current (h : b.InRound R start turns v i i) :
    ∃ q w, b = .running q ∧ Process.Run R start w turns q v ∧ q.exit? = none ∧ ∀ y ∈ turns, ¬ Process.RestsAfter y := by
  cases h with
  | polled hi => exact absurd hi (Nat.lt_irrefl _)
  | busy _ run hq hbusy => exact ⟨_, _, rfl, run, hq, hbusy⟩
  | ahead hi => exact absurd hi (Nat.lt_irrefl _)

/-- A branch takes no turn after it has settled. -/
theorem unsettled (h : b.InRound R start turns v i next) : ∀ y ∈ turns, y.1.exit? = none := by
  cases h with
  | polled _ run => exact run.unsettled
  | busy _ run => exact run.unsettled
  | ahead _ ht =>
    subst ht
    exact fun _ hy => nomatch hy

end Branch.InRound

/-- One more turn. -/
theorem History.Unforced.concat {t : TokenId} {h : History} (hu : h.Unforced t) {y : Process × World}
    (hy : y.2.isInterrupted t = true → ∃ z ∈ h, Process.Trips t z) : (h ++ [y]).Unforced t := by
  intro h₁ y' h₂ heq hy'
  rcases List.eq_nil_or_concat h₂ with rfl | ⟨h₂, z, rfl⟩
  · obtain ⟨rfl, hlast⟩ := List.append_inj' heq rfl
    obtain rfl := List.singleton_inj.mp hlast
    exact hy hy'
  · have heq' : h ++ [y] = (h₁ ++ y' :: h₂) ++ [z] := by rw [heq]; simp
    exact hu h₁ y' h₂ (List.append_inj' heq' rfl).1 hy'

namespace TrippedInOrder

variable {t : TokenId} {turns : Nat → History} {next : Nat} {v v' : World}

/-- Others do not trip the token. -/
theorem moved (hT : TrippedInOrder t turns next v) (hs : v'.isInterrupted t = v.isInterrupted t) :
    TrippedInOrder t turns next v' where
  ordered := hT.ordered
  tripped := by rw [hs, hT.tripped]
  unforced := hT.unforced
  stopped := hT.stopped

/-- It is the turn of the next branch. -/
theorem advanced (hT : TrippedInOrder t turns next v) : TrippedInOrder t turns (next + 1) v where
  ordered i hi := hT.ordered i (by omega)
  tripped := hT.tripped
  unforced := hT.unforced
  stopped := hT.stopped

/-- A turn of the branch whose turn it is. -/
theorem turn (hT : TrippedInOrder t turns next v) (q : Process) :
    TrippedInOrder t (fun i => if next = i then turns i ++ [(q, v)] else turns i) next (q.turn v).world := by
  have hmem : ∀ {j : Nat} {y : Process × World}, y ∈ (if next = j then turns j ++ [(q, v)] else turns j) →
      y ∈ turns j ∨ next = j ∧ y = (q, v) := by
    intro j y hy
    split at hy
    · rename_i hj
      exact (List.mem_append.mp hy).imp id fun hy => ⟨hj, List.mem_singleton.mp hy⟩
    · exact .inl hy
  have hold : ∀ {j : Nat} {y : Process × World}, y ∈ turns j → y ∈ (if next = j then turns j ++ [(q, v)] else turns j) := by
    intro j y hy
    split
    · exact List.mem_append_left _ hy
    · exact hy
  exact
    { ordered := fun i hi => by rw [if_neg (Nat.ne_of_lt hi), hT.ordered i hi]
      tripped := by
        constructor
        · intro hv
          by_cases hbefore : v.isInterrupted t = true
          · obtain ⟨j, y, hy, hy'⟩ := hT.tripped.mp hbefore
            exact ⟨j, y, hold hy, hy'⟩
          · exact ⟨next, (q, v), by simp, Bool.eq_false_iff.mpr hbefore, hv⟩
        · rintro ⟨j, y, hy, hy'⟩
          rcases hmem hy with hy | ⟨-, rfl⟩
          · exact (q.turn_later v).latched t (hT.tripped.mpr ⟨j, y, hy, hy'⟩)
          · exact hy'.2
      unforced := fun i hi => by
        have hbefore : ∀ j < i, ∀ y ∈ turns j, ¬ Process.Trips t y := fun j hj y hy => hi j hj y (hold hy)
        have hi' := hT.unforced i hbefore
        by_cases hnext : next = i
        · subst hnext
          rw [if_pos rfl]
          refine hi'.concat fun hv => ?_
          obtain ⟨j, z, hz, htrips⟩ := hT.tripped.mp hv
          rcases Nat.lt_trichotomy j next with hlt | rfl | hgt
          · exact absurd htrips (hbefore j hlt z hz)
          · exact ⟨z, hz, htrips⟩
          · rw [hT.ordered j hgt] at hz
            nomatch hz
        · rw [if_neg hnext]
          exact hi'
      stopped := fun i ⟨j, hj, y, hy, hy'⟩ z hz => by
        rcases hmem hy with hy | ⟨rfl, -⟩
        · rcases hmem hz with hz | ⟨-, rfl⟩
          · exact hT.stopped i ⟨j, hj, y, hy, hy'⟩ z hz
          · exact hT.tripped.mpr ⟨j, y, hy, hy'⟩
        · rcases hmem hz with hz | ⟨rfl, -⟩
          · rw [hT.ordered i hj] at hz
            nomatch hz
          · exact absurd hj (Nat.lt_irrefl _) }

end TrippedInOrder

/-- A turn of a group is that of the branch whose turn it is. When the poll of that branch is over, the next one follows. -/
theorem Process.turn_joining (m : Interpreter) (g : Group) (seen rest : List Branch) (q : Process) (w : World) :
    (Process.turn (.joining m g seen (.running q :: rest)) w).world = (q.turn w).world ∧
      ((RestsAfter (q, w) ∧ ∃ g', g'.token = g.token ∧ (Process.turn (.joining m g seen (.running q :: rest)) w).process =
          .joining m g' (Branch.ofProcess (q.turn w).process :: seen) rest) ∨
        (¬ RestsAfter (q, w) ∧ (Process.turn (.joining m g seen (.running q :: rest)) w).process =
          .joining m g seen (.running (q.turn w).process :: rest))) := by
  simp only [Process.turn, RestsAfter]
  split
  · rename_i e he
    exact ⟨rfl, .inl ⟨.inl (by rw [he]; exact Option.some_ne_none e), { g with failed := g.failed || e.isFailure }, rfl, by rw [he]; rfl⟩⟩
  · rename_i hpace hns
    have hq := exit?_eq_none hns
    exact ⟨rfl, .inr ⟨by simp [hq, hpace], rfl⟩⟩
  · rename_i hpace hns
    exact ⟨rfl, .inl ⟨.inr hpace, _, rfl, by rw [Branch.ofProcess_running (exit?_eq_none hns)]⟩⟩

namespace Interpreter.FirstRound

variable {R : World → World → Prop} {m : Interpreter} {children : List Node} {t : TokenId} {h : History}
  {seen rest : List Branch} {q : Process} {v : World}

/-- While others are at work, the group is where it was. -/
theorem moved (hJ : m.FirstRound R children t h seen rest v) (hm : R v v') (hs : v'.isInterrupted t = v.isInterrupted t) :
    m.FirstRound R children t h seen rest v' where
  length := hJ.length
  shown i n b hn hb := (hJ.shown i n b hn hb).moved hm
  token := hJ.token.moved hs

/-- The branch whose turn it is has come from its start, and is busy. -/
theorem current {b : Branch} (hJ : m.FirstRound R children t h seen (b :: rest) v) :
    ∃ n q w, b = .running q ∧ children[seen.length]? = some n ∧
      Process.Run R (.start n m.env t m.interval) w (h.branchTurns seen.length) q v ∧ q.exit? = none ∧
        ∀ y ∈ h.branchTurns seen.length, ¬ Process.RestsAfter y := by
  have hlen : seen.length < children.length := by
    have := hJ.length
    simp at this
    omega
  have hn := List.getElem?_eq_getElem hlen
  obtain ⟨q, w, hq, run, hbusy⟩ := (hJ.shown _ _ b hn (by simp)).current
  exact ⟨_, q, w, hq, hn, run, hbusy⟩

/-- A turn of the branch whose turn it is. -/
theorem turn (hJ : m.FirstRound R children t h seen (.running q :: rest) v) (g : Group) :
    ∃ g' seen' rest', g'.token = g.token ∧
      (Process.turn (.joining m g seen (.running q :: rest)) v).process = .joining m g' seen' rest' ∧
        m.FirstRound R children t (h ++ [(.joining m g seen (.running q :: rest), v)]) seen' rest'
          (Process.turn (.joining m g seen (.running q :: rest)) v).world := by
  obtain ⟨n, q', w, hq', hn, run, hq, hbusy⟩ := hJ.current
  obtain rfl := Branch.running.inj hq'
  have hturns : (h ++ [(Process.joining m g seen (.running q :: rest), v)]).branchTurns =
      fun i => if seen.length = i then h.branchTurns i ++ [(q, v)] else h.branchTurns i := by
    funext i
    rw [History.branchTurns_concat]
    simp only [Process.branchTurn]
    split <;> simp
  have hlast := run.snoc hq
  obtain ⟨hworld, ⟨hrests, g', hg, hp⟩ | ⟨hrests, hp⟩⟩ := Process.turn_joining m g seen rest q v <;> rw [hworld]
  · refine ⟨g', _, _, hg, hp, ?_⟩
    exact
      { length := by simpa using hJ.length
        shown := fun i n' b hn' hb => by
          rw [hturns, List.length_cons]
          by_cases hi : seen.length = i
          · subst hi
            obtain rfl := Option.some.inj (hn.symm.trans hn')
            obtain rfl : Branch.ofProcess (q.turn v).process = b := by simpa using hb
            simp only [if_true]
            exact .polled (Nat.lt_succ_self _) hlast rfl hbusy hrests
          · have hb' : (seen.reverse ++ Branch.running q :: rest)[i]? = some b := by
              rw [← hb]
              grind
            simp only [if_neg hi]
            exact (hJ.shown i n' b hn' hb').advanced (fun h => hi h.symm) rfl
        token := by
          rw [hturns]
          exact (hJ.token.turn q).advanced }
  · refine ⟨g, _, _, rfl, hp, ?_⟩
    exact
      { length := by simpa using hJ.length
        shown := fun i n' b hn' hb => by
          rw [hturns]
          by_cases hi : seen.length = i
          · subst hi
            obtain rfl := Option.some.inj (hn.symm.trans hn')
            obtain rfl : Branch.running (q.turn v).process = b := by simpa using hb
            simp only [if_true]
            refine .busy rfl hlast ?_ fun y hy => ?_
            · exact Classical.not_not.mp fun hq' => hrests (.inl hq')
            · rcases List.mem_append.mp hy with hy | hy
              · exact hbusy y hy
              · rwa [List.mem_singleton.mp hy]
          · have hb' : (seen.reverse ++ Branch.running q :: rest)[i]? = some b := by
              rw [← hb]
              grind
            simp only [if_neg hi]
            exact (hJ.shown i n' b hn' hb').aside fun h => hi h.symm
        token := by
          rw [hturns]
          exact hJ.token.turn q }

end Interpreter.FirstRound

/-! ## Branches that are stopped before they begin -/

/-- A process that has started under a token that had been tripped. -/
inductive Process.CutOff (m : Interpreter) (n : Node) : Process → Prop where
  | next : CutOff m n (.next m n)
  | counted : CutOff m n (.counted m.tick n)
  | unwinding : CutOff m n (.popping m.tick .interruption)
  | settled : CutOff m n (.settled .interrupted)

/-- It calls nothing, and it rests before its end only if it counts instructions one by one. -/
theorem Process.CutOff.turn {env : Environment} {t : TokenId} {k : Nat} {n : Node} {p : Process} {w : World}
    (hp : p.CutOff { env, token := t, interval := k } n) (hn : p.exit? = none) (ht : w.isInterrupted t = true) :
    p.calls w = [] ∧ (p.turn w).process.CutOff { env, token := t, interval := k } n ∧
      (RestsAfter (p, w) → (p.turn w).process = .settled .interrupted ∨ k = 1) := by
  cases hp with
  | next =>
    refine ⟨rfl, ?_, fun hrests => .inr ?_⟩
    · rw [(turn_next _ n w).1]
      exact .counted
    · rcases hrests with hx | hw
      · exact absurd (by rw [(turn_next _ n w).1]; rfl) hx
      · simp only [Process.turn] at hw
        split at hw
        · rename_i hk
          exact Nat.dvd_one.mp (Nat.dvd_of_mod_eq_zero hk)
        · cases hw
  | counted =>
    have hturn : Process.turn (.counted (Interpreter.tick { env, token := t, interval := k }) n) w =
        (Interpreter.tick { env, token := t, interval := k }).interrupted w := if_pos ht
    refine ⟨if_pos ht, ?_, fun hrests => ?_⟩
    · rw [hturn]
      exact .unwinding
    · rw [RestsAfter, hturn] at hrests
      exact hrests.elim (absurd rfl ·) fun h => by cases h
  | unwinding => exact ⟨rfl, .settled, fun _ => .inl rfl⟩
  | settled => exact absurd hn (Option.some_ne_none _)

/-- The turns of a branch that has started under a token that had been tripped. -/
theorem Process.Run.cutOff {R : World → World → Prop} (hR : ∀ a b, R a b → World.Later a b) {env : Environment} {t : TokenId}
    {k : Nat} {n : Node} {w v : World} {h : History} {p q : Process} (run : Run R p w h q v)
    (hp : p.CutOff { env, token := t, interval := k } n) (ht : w.isInterrupted t = true) :
    h.calls = [] ∧ q.CutOff { env, token := t, interval := k } n ∧
      ∀ y ∈ h, RestsAfter y → (y.1.turn y.2).process = .settled .interrupted ∨ k = 1 := by
  induction run with
  | done => exact ⟨rfl, hp, nofun⟩
  | @turn p q w v h hn run ih =>
    obtain ⟨hcalls, hp', hrests⟩ := hp.turn hn ht
    obtain ⟨hcalls', hq, hrests'⟩ := ih hp' ((p.turn_later w).latched t ht)
    refine ⟨?_, hq, fun y hy => ?_⟩
    · simp only [History.calls, List.flatMap_cons, hcalls, List.nil_append]
      exact hcalls'
    · rcases List.mem_cons.mp hy with rfl | hy
      · exact hrests
      · exact hrests' y hy
  | moved hm _ ih => exact ih hp ((hR _ _ hm).latched t ht)

/-- Without a turn a process stays what it is. -/
theorem Process.Run.eq_of_nil {R : World → World → Prop} {w v : World} {p q : Process} (run : Run R p w [] q v) : q = p := by
  generalize hnil : ([] : History) = h at run
  induction run with
  | done => rfl
  | turn => nomatch hnil
  | moved _ _ ih => exact ih hnil

/-- A branch that has been polled in the first round, and that found the token tripped when it started. Nothing is known of the
world in which it has been put before its first turn. -/
theorem Branch.InRound.cutOff {R : World → World → Prop} (hR : ∀ a b, R a b → World.Later a b) {n : Node}
    {env : Environment} {t : TokenId} {k i next : Nat} {turns : History} {v : World} {b : Branch}
    (hb : b.InRound R (.start n env t k) turns v i next) (ht : ∀ y ∈ turns, y.2.isInterrupted t = true) :
    turns.calls = [] ∧ (i < next → b = .finished .interrupted ∨ k = 1) := by
  have hrun : ∀ {w u : World} {q : Process}, Process.Run R (.start n env t k) w turns q u →
      turns.calls = [] ∧ ∀ y ∈ turns, Process.RestsAfter y → (y.1.turn y.2).process = .settled .interrupted ∨ k = 1 := by
    intro w u q run
    rcases run.starts rfl with ⟨rfl, -⟩ | ⟨w', h', rfl, run'⟩
    · exact ⟨rfl, fun _ hy => nomatch hy⟩
    · have := (Process.Run.turn (rfl : (Process.start n env t k).exit? = none) run').cutOff hR .next
        (ht _ List.mem_cons_self)
      exact ⟨this.1, this.2.2⟩
  cases hb with
  | polled hi run hturns hbusy hlast =>
    obtain ⟨hcalls, hrests⟩ := hrun run
    subst hturns
    refine ⟨hcalls, fun _ => (hrests _ (by simp) hlast).imp (fun hsettled => ?_) id⟩
    rw [run.split.2.eq_of_nil, hsettled]
    rfl
  | busy hi run => exact ⟨(hrun run).1, fun hlt => absurd hi (Nat.ne_of_lt hlt)⟩
  | ahead hi hturns =>
    subst hturns
    exact ⟨rfl, fun hlt => absurd hi (Nat.lt_asymm hlt)⟩

/-! ## Runs of the first round -/

/-- A run of a group that does not go beyond its first round. -/
theorem Process.Run.firstRound {R : World → World → Prop} {m : Interpreter} {children : List Node} {t : TokenId}
    (hs : ∀ a b, R a b → b.isInterrupted t = a.isInterrupted t) {p₀ p : Process} {w v : World} {h : History}
    (run : Run R p₀ w h p v) :
    ∀ (among : History) (g : Group) (seen rest : List Branch), p₀ = .joining m g seen rest → g.token = t →
      m.FirstRound R children t among seen rest w → (∀ y ∈ h, y.1.endsRound = false) →
        ∃ g' seen' rest', p = .joining m g' seen' rest' ∧ g'.token = t ∧
          m.FirstRound R children t (among ++ h) seen' rest' v := by
  induction run with
  | done p w =>
    intro among g seen rest hp hg hJ _
    rw [List.append_nil]
    exact ⟨g, seen, rest, hp, hg, hJ⟩
  | moved hm _ ih =>
    intro among g seen rest hp hg hJ hround
    exact ih among g seen rest hp hg (hJ.moved hm (hs _ _ hm)) hround
  | @turn p q w v h hp run ih =>
    intro among g seen rest hjoin hg hJ hround
    subst hjoin
    match rest with
    | [] => nomatch hround _ List.mem_cons_self
    | b :: rest =>
      obtain ⟨n, q', w', rfl, -⟩ := hJ.current
      obtain ⟨g', seen', rest', hg', hp', hJ'⟩ := hJ.turn g
      have := ih _ g' seen' rest' hp' (hg'.trans hg) hJ' fun y hy => hround y (List.mem_cons_of_mem _ hy)
      rwa [List.append_assoc] at this

/-- A round of a group comes to its end: before the last branch has been polled the group neither waits nor settles. -/
theorem Process.round_ends {R : World → World → Prop} {m : Interpreter} {n : Nat} :
    ∀ {g : Group} {seen rest : List Branch} {w : World}, (joining m g seen rest).Rests n w →
      ∃ h g' seen' v, Run R (.joining m g seen rest) w h (.joining m g' seen' []) v ∧ ∀ y ∈ h, y.1.endsRound = false := by
  induction n with
  | zero => exact fun h => h.elim
  | succ n ih =>
    intro g seen rest w hrests
    have step : ∀ {b : Branch} {rest' : List Branch}, rest = b :: rest' →
        (∃ g' seen' rest'', (turn (.joining m g seen rest) w).process = .joining m g' seen' rest'') →
        (turn (.joining m g seen rest) w).pace = .busy →
          ∃ h g' seen' v, Run R (.joining m g seen rest) w h (.joining m g' seen' []) v ∧
            ∀ y ∈ h, y.1.endsRound = false := by
      rintro b rest' rfl ⟨g', seen', rest'', hp⟩ hpace
      rcases hrests with hx | hw | hrests
      · rw [hp] at hx
        exact absurd rfl hx
      · rw [hpace] at hw
        nomatch hw
      · rw [hp] at hrests
        obtain ⟨h, g'', seen'', v, run, hround⟩ := ih hrests
        rw [← hp] at run
        refine ⟨_ :: h, g'', seen'', v, .turn rfl run, fun y hy => ?_⟩
        rcases List.mem_cons.mp hy with rfl | hy
        · rfl
        · exact hround y hy
    match rest with
    | [] => exact ⟨[], g, seen, w, .done _ _, fun _ hy => nomatch hy⟩
    | .finished e :: rest => exact step rfl ⟨_, _, _, rfl⟩ rfl
    | .running q :: rest =>
      obtain ⟨g', seen', rest', hp, -⟩ := joining_turn m g seen rest q w
      refine step rfl ⟨_, _, _, hp⟩ ?_
      simp only [turn]
      split <;> rfl

/-- The token of a group that is entered under a token that nobody has tripped. -/
theorem Interpreter.take_all {m : Interpreter} (children : List Node) {w : World} (ht : m.token < w.tokens.size)
    (ho : w.isInterrupted m.token = false) :
    ∃ link, (m.take (.all children) w).process = .joining m { token := w.newToken.1, link } []
        (children.map fun n => .running (.start n m.env w.newToken.1 m.interval)) ∧
      (m.take (.all children) w).world.isInterrupted w.newToken.1 = false := by
  let u := w.record (.step (Node.all children).kind m.frames.height)
  have hu : u.newToken.2.isInterrupted m.token = false := (u.isInterrupted_newToken m.token).trans ho
  have hlt : m.token < u.newToken.2.tokens.size := Nat.lt_of_lt_of_le ht (World.newToken_later u).tokens
  obtain ⟨s, v, hreact⟩ := World.react_eq_some hlt hu (.forward u.newToken.1)
  refine ⟨some s, ?_, ?_⟩
  · change Process.joining m { token := u.newToken.1, link := (u.newToken.2.react m.token (.forward u.newToken.1)).1 } [] _ =
      _
    rw [hreact]
    rfl
  · change (u.newToken.2.react m.token (.forward u.newToken.1)).2.isInterrupted u.newToken.1 = false
    rw [hreact]
    exact (World.isInterrupted_of_react_eq_some hreact _).trans u.newToken_untripped

/-- What holds when the first round begins. -/
theorem Interpreter.FirstRound.start (R : World → World → Prop) (m : Interpreter) (children : List Node) {t : TokenId}
    {v : World} (hv : v.isInterrupted t = false) :
    m.FirstRound R children t [] [] (children.map fun n => .running (.start n m.env t m.interval)) v where
  length := by simp
  shown i n b hn hb := by
    have hb' : .running (.start n m.env t m.interval) = b := by simpa [hn] using hb
    subst hb'
    rcases Nat.eq_zero_or_pos i with rfl | hi
    · exact .busy rfl (.done _ _) rfl fun _ hy => nomatch hy
    · exact .ahead hi rfl
  token :=
    { ordered := fun _ _ => rfl
      tripped := by
        rw [hv]
        exact ⟨nofun, fun ⟨_, _, hy, _⟩ => nomatch hy⟩
      unforced := fun _ _ h₁ y h₂ heq => by cases h₁ <;> nomatch heq
      stopped := fun _ _ _ hz => nomatch hz }

/-- The first round of a group that is entered under a token that nobody has tripped, while nobody else trips the group's
token. The round comes to its end, and in it each branch goes on to its exit or to its first suspension. As long as no branch
has tripped the token, the branches after it find it untripped, however the ones before have ended: a branch that settles
leaves the world as it was. Once a branch has tripped the token, those after it call nothing and end with interruption. -/
theorem first_round {R : World → World → Prop} (hR : ∀ a b, R a b → World.Later a b) {m : Interpreter} {children : List Node}
    {w : World} (hs : ∀ a b, R a b → b.isInterrupted w.newToken.1 = a.isInterrupted w.newToken.1)
    (ht : m.token < w.tokens.size) (ho : w.isInterrupted m.token = false) :
    (∃ h g seen v,
        Process.Run R (m.take (.all children) w).process (m.take (.all children) w).world h (.joining m g seen []) v ∧
          ∀ y ∈ h, y.1.endsRound = false) ∧
      ∀ h p v, Process.Run R (m.take (.all children) w).process (m.take (.all children) w).world h p v →
        (∀ y ∈ h, y.1.endsRound = false) →
          ∃ g seen rest, p = .joining m g seen rest ∧ m.FirstRound R children w.newToken.1 h seen rest v ∧
            ∀ i b, (seen.reverse ++ rest)[i]? = some b →
              (∀ y ∈ h.branchTurns i, (y.1.turn y.2).process.exit? ≠ none → (y.1.turn y.2).world = y.2) ∧
                ((∃ j < i, ∃ y ∈ h.branchTurns j, Process.Trips w.newToken.1 y) →
                  (h.branchTurns i).calls = [] ∧ (i < seen.length → b = .finished .interrupted ∨ m.interval = 1)) := by
  obtain ⟨link, hp, hv⟩ := m.take_all children ht ho
  rw [hp]
  constructor
  · obtain ⟨n, hrests⟩ := Process.exists_rests (.joining m { token := w.newToken.1, link } []
      (children.map fun n => .running (.start n m.env w.newToken.1 m.interval))) (m.take (.all children) w).world
    exact Process.round_ends hrests
  · intro h p v run hround
    obtain ⟨g, seen, rest, hp', -, hJ⟩ := run.firstRound hs [] _ [] _ rfl rfl (.start R m children hv) hround
    refine ⟨g, seen, rest, hp', hJ, fun i b hb => ?_⟩
    have hi : i < children.length := by
      rw [← hJ.length]
      exact (List.getElem?_eq_some_iff.mp hb).1
    have hround := hJ.shown i _ b (List.getElem?_eq_getElem hi) hb
    exact ⟨fun y hy hsettled => Process.world_of_settling (hround.unsettled y hy) hsettled,
      fun htrips => hround.cutOff hR (hJ.token.stopped i htrips)⟩

/-- A branch that interrupts itself, and one that logs a word. -/
def interruptingGroup : List Node :=
  [.interrupt, .succeedLazy do
    Action.perform (.log (.str "second"))
    return .ok .unit]

/-- The interpreter that joins the group. -/
def groupInterpreter : Interpreter := { env := .plain .null, token := 0, interval := 9 }

/-- The turns of the group in its first round, and what they lead to. -/
def interruptingRound : History × Process × World :=
  (groupInterpreter.take (.all interruptingGroup) (World.newToken default).2).process.alone 6
    (groupInterpreter.take (.all interruptingGroup) (World.newToken default).2).world

theorem first_round_interruptingGroup :
    ∃ g seen rest, interruptingRound.2.1 = .joining groupInterpreter g seen rest ∧
      groupInterpreter.FirstRound (· = ·) interruptingGroup 1 interruptingRound.1 seen rest interruptingRound.2.2 := by
  have hR : ∀ a b : World, a = b → World.Later a b := fun a _ h => h ▸ .refl a
  have hs : ∀ a b : World, a = b → b.isInterrupted 1 = a.isInterrupted 1 := fun _ _ h => h ▸ rfl
  have hround :=
    (@first_round (· = ·) hR groupInterpreter interruptingGroup (World.newToken default).2 hs Nat.zero_lt_one rfl).2
  obtain ⟨g, seen, rest, hp, hJ, -⟩ := hround _ _ _ (Process.alone_run 6 _ _) (by decide +kernel)
  exact ⟨g, seen, rest, hp, hJ⟩

/-- The branch after one that interrupts itself finds the token of the group tripped when it starts. Its callback is not
called, and nothing is logged in the whole round. -/
theorem prefix_cut_short :
    ∃ h g seen v,
      Process.Run (· = ·) (groupInterpreter.take (.all interruptingGroup) (World.newToken default).2).process
          (groupInterpreter.take (.all interruptingGroup) (World.newToken default).2).world h
          (.joining groupInterpreter g seen []) v ∧
        (∀ y ∈ h, y.1.endsRound = false) ∧ ¬ (h.branchTurns 1).Unforced 1 ∧ (h.branchTurns 1).calls = [] ∧ v.log = #[] := by
  refine ⟨interruptingRound.1, _, _, interruptingRound.2.2, Process.alone_run 6 _ _, by decide +kernel, fun hu => ?_, rfl,
    rfl⟩
  obtain ⟨z, hz, -⟩ := hu [] _ _ rfl rfl
  nomatch hz

end Interruptible
