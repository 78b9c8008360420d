import Interruptible.Proofs.Machine.FirstRound

/-!
# Yields

How many nodes are taken between two moments at which a task gives control back. Every interpreter counts its own nodes, and
yields before each node whose number is a multiple of the interval. So from one moment at which the task gives control back to
the next one, every interpreter of a run takes at most as many nodes as the interval says: that of the main program, and each of
those that run a finalizer or a branch of a group, at whatever depth (`nodes_between_yields`). There is no such bound on the
nodes of all of them together, since finalizers and branches have counts of their own (`nodes_of_all_branches`).

What an interpreter may still take is a potential that its nodes use up (`Process.left`).
-/

namespace Interruptible

/-- Where inside a process its next turn is taken: the finalizer or the branch that it is busy with, and so on inside that. -/
def Process.path : Process → List Nat
  | .finalizing _ _ (.settled _) => []
  | .finalizing _ _ child => 0 :: child.path
  | .joining _ _ seen (.running q :: _) => seen.length :: q.path
  | _ => []

/-- Whether the next turn of a process takes a node. -/
def Process.takes : Process → World → Bool
  | .counted m _, w => !w.isInterrupted m.token
  | .finalizing _ _ child, w => child.takes w
  | .joining _ _ _ (.running q :: _), w => q.takes w
  | _, _ => false

/-- Whether the next turn of a process takes a node of the interpreter at a place inside it. -/
def Process.takesAt (place : List Nat) (p : Process) (w : World) : Bool := p.path == place && p.takes w

/-- The interpreter at a place inside a process. The branches of a group are numbered in their order. -/
def Process.at? : List Nat → Process → Option Process
  | [], p => some p
  | i :: place, .finalizing _ _ child => if i = 0 then child.at? place else none
  | i :: place, .joining _ _ seen rest => ((seen.reverse ++ rest)[i]?).bind fun b => b.process.at? place
  | _ :: _, _ => none

/-- At a place inside a process, there is an interpreter that has not taken a turn. -/
def Process.FreshAt (place : List Nat) (p : Process) : Prop := ∃ n env t k, p.at? place = some (.start n env t k)

/-- With this turn, an interpreter starts at a place inside a process. -/
def Process.StartsAt (place : List Nat) (p : Process) (w : World) : Prop := ¬ p.FreshAt place ∧ (p.turn w).process.FreshAt place

/-- Turns between which control is not given back to the scheduler. -/
def History.Unbroken (h : History) : Prop := ∀ y ∈ h.dropLast, (y.1.turn y.2).pace = .busy

/-- How many nodes an interpreter can still take before it yields, after a node that is counted. -/
def Interpreter.spare (m : Interpreter) : Nat := m.interval - 1 - m.instructions % m.interval

/-- How many nodes the interpreter at a place can still take in this poll. A branch that has been polled in this round takes
no more. -/
def Process.left : List Nat → Process → Nat
  | [], .counted m _ => m.spare + 1
  | [], .next m _ | [], .popping m _ | [], .finalizing m _ _ | [], .awaiting m _ | [], .joining m _ _ _ => m.spare
  | [], .settled _ => 0
  | i :: place, .finalizing _ _ child => if i = 0 then child.left place else 0
  | i :: place, .joining _ _ seen rest =>
    if i < seen.length then 0
    else match rest[i - seen.length]? with
      | some (.running q) => q.left place
      | _ => 0
  | _ :: _, _ => 0

/-- All interpreters inside a process yield at the same interval. -/
inductive Process.Paced (k : Nat) : Process → Prop where
  | next {m : Interpreter} (hm : m.interval = k) (n : Node) : Paced k (.next m n)
  | counted {m : Interpreter} (hm : m.interval = k) (n : Node) : Paced k (.counted m n)
  | popping {m : Interpreter} (hm : m.interval = k) (o : Outcome) : Paced k (.popping m o)
  | finalizing {m : Interpreter} (hm : m.interval = k) (o : Outcome) {child : Process} (hc : Paced k child) :
    Paced k (.finalizing m o child)
  | awaiting {m : Interpreter} (hm : m.interval = k) (a : Awaited) : Paced k (.awaiting m a)
  | joining {m : Interpreter} (hm : m.interval = k) (g : Group) {seen rest : List Branch}
    (hseen : ∀ q, .running q ∈ seen → Paced k q) (hrest : ∀ q, .running q ∈ rest → Paced k q) :
    Paced k (.joining m g seen rest)
  | settled (e : Exit Value Payload) : Paced k (.settled e)

namespace Process

variable {k : Nat} {m : Interpreter} {p q : Process} {w : World} {place : List Nat}

/-- A process that has not begun has one interpreter, with its interval. -/
theorem Paced.start {i : Nat} (hi : i = k) (n : Node) (env : Environment) (t : TokenId) : (Process.start n env t i).Paced k :=
  .next hi n

/-- What a turn leaves of an interpreter that takes its own turn: the same count, and the same interval in it and whatever
it starts; a node that is not to be taken yet; and inside it nothing but interpreters that start. -/
structure Kept (k : Nat) (m : Interpreter) (p : Process) : Prop where
  paced : p.Paced k
  left : p.left [] ≤ m.spare
  inside : ∀ i place, p.left (i :: place) = 0 ∨ p.FreshAt (i :: place)

end Process

namespace Interpreter

variable {k : Nat} {m : Interpreter}

/-- A node that is counted and not yielded before is one of those that are left. -/
theorem spare_counted (hm : 1 ≤ m.interval) (hy : (m.instructions + 1) % m.interval ≠ 0) :
    ({ m with instructions := m.instructions + 1 } : Interpreter).spare + 1 = m.spare := by
  have hlt := Nat.mod_lt m.instructions hm
  have hadd := Nat.mod_add_mod m.instructions m.interval 1
  have hnext : m.instructions % m.interval + 1 < m.interval := by
    refine Nat.lt_of_le_of_ne hlt fun h => hy ?_
    rw [← hadd, h, Nat.mod_self]
  rw [Nat.mod_eq_of_lt hnext] at hadd
  simp only [spare, ← hadd]
  omega

/-- An interpreter that is about to count a node keeps its count and its interval. -/
theorem kept_next (hm : m.interval = k) {m' : Interpreter} (hi : m'.interval = m.interval)
    (hc : m'.instructions = m.instructions) (n : Node) : Process.Kept k m (.next m' n) := by
  refine ⟨.next (hi.trans hm) n, Nat.le_of_eq ?_, fun _ _ => .inl rfl⟩
  simp only [Process.left, spare, hi, hc]

/-- An interpreter that pops frames keeps its count and its interval. -/
theorem kept_popping (hm : m.interval = k) {m' : Interpreter} (hi : m'.interval = m.interval)
    (hc : m'.instructions = m.instructions) (o : Outcome) : Process.Kept k m (.popping m' o) := by
  refine ⟨.popping (hi.trans hm) o, Nat.le_of_eq ?_, fun _ _ => .inl rfl⟩
  simp only [Process.left, spare, hi, hc]

/-- An interpreter that calls code back keeps its count and its interval. -/
theorem goOn_kept (hm : m.interval = k) {m' : Interpreter} (hi : m'.interval = m.interval)
    (hc : m'.instructions = m.instructions) (a : Action Node) (w : World) : Process.Kept k m (m'.goOn a w).process :=
  kept_next hm hi hc _

/-- An interpreter that finds itself interrupted keeps its count and its interval. -/
theorem interrupted_kept (hm : m.interval = k) (w : World) : Process.Kept k m (m.interrupted w).process :=
  kept_popping hm rfl rfl _

/-- The branches of a group start when the group does. -/
theorem fanOut_kept (hm : m.interval = k) (children : List Node) (w : World) : Process.Kept k m (m.fanOut children w).process := by
  refine ⟨.joining hm _ nofun fun q hq => ?_, Nat.le_refl _, fun i place => ?_⟩
  · obtain ⟨n, -, hn⟩ := List.mem_map.mp hq
    rw [← Branch.running.inj hn]
    exact .start hm n _ _
  · simp only [fanOut, Process.left, Process.FreshAt, Process.at?, List.length_nil, Nat.not_lt_zero, if_false, Nat.sub_zero,
      List.reverse_nil, List.nil_append, List.getElem?_map]
    cases children[i]? with
    | none => exact .inl rfl
    | some n =>
      cases place with
      | nil => exact .inr ⟨n, m.env, _, m.interval, rfl⟩
      | cons j place => exact .inl rfl

/-- An interpreter that awaits a future keeps its count and its interval. -/
theorem await_kept (hm : m.interval = k) (factory : OperationId → Action Future) (onReject : Value → Action (Cause Value))
    (w : World) : Process.Kept k m (m.await factory onReject w).process := by
  unfold await
  dsimp only
  split
  · exact interrupted_kept hm _
  · split
    · exact ⟨.awaiting hm _, Nat.le_refl _, fun _ _ => .inl rfl⟩
    · exact kept_next hm rfl rfl _

/-- An interpreter that takes a node keeps its count and its interval: the branches of a group yield at that interval, too. -/
theorem take_kept (hm : m.interval = k) (n : Node) (w : World) : Process.Kept k m (m.take n w).process := by
  unfold take
  dsimp only
  split
  · exact goOn_kept hm rfl rfl _ _
  · split
    · exact goOn_kept hm rfl rfl _ _
    · exact kept_next hm rfl rfl _
  · refine kept_next hm ?_ ?_ _ <;> rfl
  · refine kept_next hm ?_ ?_ _ <;> rfl
  · exact goOn_kept hm rfl rfl _ _
  · exact kept_popping hm rfl rfl _
  · split
    · exact kept_next hm rfl rfl _
    · exact kept_next hm rfl rfl _
  · exact kept_popping hm rfl rfl _
  · exact interrupted_kept hm _
  · exact goOn_kept hm rfl rfl _ _
  · refine kept_next hm ?_ ?_ _ <;> rfl
  · exact fanOut_kept hm _ _
  · exact await_kept hm _ _ _
  · refine kept_next hm ?_ ?_ _ <;> rfl

/-- An interpreter that pops a frame keeps its count and its interval: a finalizer yields at that interval, too. -/
theorem pop_kept (hm : m.interval = k) (o : Outcome) (w : World) : Process.Kept k m (m.pop o w).process := by
  unfold pop
  split
  · exact ⟨.settled _, Nat.zero_le _, fun _ _ => .inl rfl⟩
  · dsimp only
    split
    · refine ⟨.finalizing ?_ _ (.start hm _ _ _), Nat.le_refl _, fun i place => ?_⟩
      · exact hm
      cases i with
      | succ i => exact .inl rfl
      | zero =>
        cases place with
        | nil => exact .inr ⟨_, _, _, _, rfl⟩
        | cons j place => exact .inl rfl
    · refine kept_popping hm ?_ ?_ _ <;> rfl
    · refine goOn_kept hm ?_ ?_ _ _ <;> rfl
    · refine goOn_kept hm ?_ ?_ _ _ <;> rfl
    · refine goOn_kept hm ?_ ?_ _ _ <;> rfl
    · refine kept_popping hm ?_ ?_ _ <;> rfl
    · refine kept_popping hm ?_ ?_ _ <;> rfl

/-- An interpreter whose finalizer has settled keeps its count and its interval. -/
theorem finalized_kept (hm : m.interval = k) (o : Outcome) (e : Exit Value Payload) (w : World) :
    Process.Kept k m (m.finalized o e w).process := by
  cases e with
  | success p => exact kept_popping hm rfl rfl _
  | failure fc =>
    cases o with
    | value p => exact kept_next hm rfl rfl _
    | failure c => exact kept_popping hm rfl rfl _
    | interruption => refine kept_popping hm ?_ ?_ _ <;> rfl

/-- An interpreter that polls a future keeps its count and its interval. -/
theorem pollAwaited_kept (hm : m.interval = k) (a : Awaited) (w : World) : Process.Kept k m (m.pollAwaited a w).process := by
  unfold pollAwaited
  split
  · exact interrupted_kept hm _
  · split
    · exact ⟨.awaiting hm _, Nat.le_refl _, fun _ _ => .inl rfl⟩
    · exact kept_next hm rfl rfl _
    · exact goOn_kept hm rfl rfl _ _
    · exact kept_next hm rfl rfl _

/-- An interpreter that joins a group keeps its count and its interval. -/
theorem joined_kept (hm : m.interval = k) (g : Group) (exits : List (Exit Value Payload)) (w : World) :
    Process.Kept k m (m.joined g exits w).process := by
  unfold joined
  cases g.link <;> dsimp only <;> split
  · exact interrupted_kept hm _
  · split
    · exact kept_next hm rfl rfl _
    · exact kept_next hm rfl rfl _
    · exact interrupted_kept hm _
  · exact interrupted_kept hm _
  · split
    · exact kept_next hm rfl rfl _
    · exact kept_next hm rfl rfl _
    · exact interrupted_kept hm _

end Interpreter

/-! ## One turn -/

namespace Process

variable {k : Nat} {p q : Process} {w : World} {place : List Nat}

/-- A branch that has settled is left as finished. -/
theorem Paced.ofProcess {m : Interpreter} {g : Group} {seen rest : List Branch} {q' : Process} (hm : m.interval = k)
    (hseen : ∀ q, .running q ∈ seen → Paced k q) (hrest : ∀ q, .running q ∈ rest → Paced k q) (hq : Paced k q') :
    Paced k (.joining m g (Branch.ofProcess q' :: seen) rest) := by
  refine .joining hm g (fun q h => ?_) hrest
  rcases List.mem_cons.mp h with heq | h
  · unfold Branch.ofProcess at heq
    split at heq
    · nomatch heq
    · exact Branch.running.inj heq ▸ hq
  · exact hseen q h

/-- A turn keeps the interval of all interpreters. -/
theorem turn_paced (hp : p.Paced k) (w : World) : (p.turn w).process.Paced k := by
  induction hp generalizing w with
  | next hm n =>
    simp only [turn]
    split <;> exact .counted (by exact hm) n
  | counted hm n =>
    simp only [turn]
    split
    · exact (Interpreter.interrupted_kept hm w).paced
    · exact (Interpreter.take_kept hm n w).paced
  | popping hm o => exact (Interpreter.pop_kept hm o w).paced
  | @finalizing m hm o child hc ih =>
    cases hx : child.exit? with
    | none =>
      rw [turn_finalizing m o hx]
      exact .finalizing hm o (ih w)
    | some e =>
      obtain rfl := exit?_eq_some hx
      exact (Interpreter.finalized_kept hm o e w).paced
  | awaiting hm a => exact (Interpreter.pollAwaited_kept hm a w).paced
  | @joining m hm g seen rest hseen hrest ihseen ihrest =>
    cases rest with
    | nil =>
      simp only [turn, Interpreter.endRound]
      split
      · exact (Interpreter.joined_kept hm g _ _).paced
      · exact .joining hm _ (fun _ h => absurd h List.not_mem_nil) fun q h => hseen q (List.mem_reverse.mp h)
    | cons b rest =>
      have hrest' : ∀ q, .running q ∈ rest → Paced k q := fun q h => hrest q (List.mem_cons_of_mem _ h)
      cases b with
      | finished e =>
        refine .joining hm g (fun q h => ?_) hrest'
        exact hseen q ((List.mem_cons.mp h).resolve_left fun h => by cases h)
      | running q =>
        have hq := ihrest q List.mem_cons_self w
        rcases (turn_joining m g seen rest q w).2 with ⟨-, g', -, heq⟩ | ⟨-, heq⟩
        · rw [heq]
          exact .ofProcess hm hseen hrest' hq
        · rw [heq]
          refine .joining hm g hseen fun q' h => ?_
          rcases List.mem_cons.mp h with heq' | h
          · exact Branch.running.inj heq' ▸ hq
          · exact hrest' q' h
  | settled e => exact .settled e

/-- What a turn does to the nodes that are left at a place: it takes one of them at most, and if the poll goes on, so many fewer
are left as it has taken, unless another interpreter starts there. -/
structure Spends (place : List Nat) (p : Process) (w : World) : Prop where
  taken : (p.takesAt place w).toNat ≤ p.left place
  goesOn : (p.turn w).pace = .busy →
    (p.takesAt place w).toNat + (p.turn w).process.left place ≤ p.left place ∨ p.StartsAt place w

/-- No node is taken at a place at which the process is not at work. -/
theorem takesAt_of_path (h : p.path ≠ place) (w : World) : p.takesAt place w = false := by
  unfold takesAt
  rw [beq_eq_false_iff_ne.mpr h, Bool.false_and]

/-- At a place that is not there, no nodes are left. -/
theorem left_of_parts (h : p.parts = []) (i : Nat) (place : List Nat) : p.left (i :: place) = 0 := by
  cases p with
  | finalizing m o child => nomatch h
  | joining m g seen rest =>
    obtain rfl := (List.append_eq_nil_iff.mp (List.map_eq_nil_iff.mp h)).2
    simp only [left, List.getElem?_nil, ite_self]
  | _ => rfl

/-- No interpreter starts at a place that is not there. -/
theorem not_freshAt_of_parts (h : p.parts = []) (i : Nat) (place : List Nat) : ¬ p.FreshAt (i :: place) := by
  rintro ⟨n, env, t, k, hat⟩
  cases p with
  | finalizing m o child => nomatch h
  | joining m g seen rest =>
    obtain ⟨rfl, rfl⟩ := List.append_eq_nil_iff.mp (List.map_eq_nil_iff.mp h)
    nomatch hat
  | _ => nomatch hat

/-- An interpreter takes a turn of its own. It waits for no other one before the turn, or for none after it. -/
theorem spends_own {m : Interpreter} (hpath : p.path = []) (hleft : (p.takes w).toNat + m.spare ≤ p.left [])
    (hkept : Kept k m (p.turn w).process) (hparts : p.parts = [] ∨ (p.turn w).process.parts = []) (place : List Nat) :
    p.Spends place w := by
  have htakes : (p.takes w).toNat ≤ p.left [] := by omega
  cases place with
  | nil =>
    have hat : p.takesAt [] w = p.takes w := by
      unfold takesAt
      rw [hpath]
      rfl
    exact ⟨hat ▸ htakes, fun _ => .inl (by have := hkept.left; rw [hat]; omega)⟩
  | cons i place =>
    have hat : p.takesAt (i :: place) w = false := takesAt_of_path (by rw [hpath]; nofun) w
    have hinside : (p.turn w).process.left (i :: place) = 0 ∨ p.StartsAt (i :: place) w := by
      rcases hparts with hparts | hparts
      · exact (hkept.inside i place).imp_right fun h => ⟨not_freshAt_of_parts hparts i place, h⟩
      · exact .inl (left_of_parts hparts i place)
    refine ⟨hat ▸ Nat.zero_le _, fun _ => hinside.imp_left fun h => ?_⟩
    rw [hat, h]
    exact Nat.zero_le _

/-- A turn of the finalizer that is run. -/
theorem spends_finalizing {m : Interpreter} {o : Outcome} (hq : ∀ place, q.Spends place w) (hx : q.exit? = none)
    (place : List Nat) : (finalizing m o q).Spends place w := by
  have hpath : (finalizing m o q).path = 0 :: q.path := by
    cases q <;> first | rfl | nomatch hx
  have hturn := turn_finalizing m o hx (w := w)
  cases place with
  | nil =>
    have hat : (finalizing m o q).takesAt [] w = false := takesAt_of_path (by rw [hpath]; nofun) w
    refine ⟨hat ▸ Nat.zero_le _, fun _ => .inl ?_⟩
    rw [hat, hturn]
    exact Nat.le_of_eq (Nat.zero_add _)
  | cons i place =>
    by_cases hi : i = 0
    · subst hi
      have hat : (finalizing m o q).takesAt (0 :: place) w = q.takesAt place w := by
        simp only [takesAt, hpath, takes, List.cons_beq_cons, beq_self_eq_true, Bool.true_and]
      refine ⟨hat ▸ (hq place).taken, ?_⟩
      unfold StartsAt
      rw [hat, hturn]
      exact fun hbusy => (hq place).goesOn hbusy
    · have hat : (finalizing m o q).takesAt (i :: place) w = false :=
        takesAt_of_path (by rw [hpath]; exact fun h => hi (List.cons.inj h).1.symm) w
      refine ⟨hat ▸ Nat.zero_le _, fun _ => .inl ?_⟩
      rw [hat, hturn]
      simp only [left, if_neg hi]
      exact Nat.le_refl _

/-- A branch that has been dealt with in this round takes no more nodes in it. -/
theorem left_seen {m : Interpreter} {g : Group} {seen rest : List Branch} {i : Nat} (hi : i < seen.length) (place : List Nat) :
    (joining m g seen rest).left (i :: place) = 0 := by
  simp only [left, if_pos hi]

/-- When the round goes on to the next branch, the places of the others are as before. -/
theorem left_passed {m : Interpreter} {g g' : Group} {seen rest : List Branch} (b b' : Branch) (i : Nat) (place : List Nat) :
    (joining m g' (b' :: seen) rest).left (i :: place) ≤ (joining m g seen (b :: rest)).left (i :: place) := by
  by_cases hi : i ≤ seen.length
  · rw [left_seen (Nat.lt_succ_of_le hi)]
    exact Nat.zero_le _
  · have hj : i - seen.length = i - (seen.length + 1) + 1 := by omega
    simp only [left, List.length_cons, if_neg (show ¬ i < seen.length + 1 by omega), if_neg (show ¬ i < seen.length by omega), hj,
      List.getElem?_cons_succ]
    exact Nat.le_refl _

/-- A turn of the branch that is polled. -/
theorem spends_joining {m : Interpreter} {g : Group} {seen rest : List Branch} (hq : ∀ place, q.Spends place w)
    (place : List Nat) : (joining m g seen (.running q :: rest)).Spends place w := by
  have hpath : (joining m g seen (.running q :: rest)).path = seen.length :: q.path := rfl
  have hturn := (turn_joining m g seen rest q w).2
  cases place with
  | nil =>
    have hat : (joining m g seen (.running q :: rest)).takesAt [] w = false :=
      takesAt_of_path (by rw [hpath]; exact List.cons_ne_nil _ _) w
    refine ⟨hat ▸ Nat.zero_le _, fun _ => .inl ?_⟩
    rw [hat]
    rcases hturn with ⟨-, g', -, heq⟩ | ⟨-, heq⟩ <;> rw [heq] <;> exact Nat.le_of_eq (Nat.zero_add _)
  | cons i place =>
    by_cases hi : i = seen.length
    · subst hi
      have hat : (joining m g seen (.running q :: rest)).takesAt (seen.length :: place) w = q.takesAt place w := by
        simp only [takesAt, hpath, takes, List.cons_beq_cons, beq_self_eq_true, Bool.true_and]
      have hleft (q' : Process) : (joining m g seen (.running q' :: rest)).left (seen.length :: place) = q'.left place := by
        simp only [left, Nat.lt_irrefl, if_false, Nat.sub_self, List.getElem?_cons_zero]
      refine ⟨by rw [hat, hleft]; exact (hq place).taken, fun _ => ?_⟩
      rw [hat, hleft]
      rcases hturn with ⟨-, g', -, heq⟩ | ⟨hbusy, heq⟩
      · rw [heq, left_seen (Nat.lt_succ_self _)]
        exact .inl (hq place).taken
      · rw [heq, hleft]
        have hfresh (q' : Process) : (joining m g seen (.running q' :: rest)).FreshAt (seen.length :: place) ↔ q'.FreshAt place := by
          simp [FreshAt, at?, Branch.process]
        have hpace : (q.turn w).pace = .busy := by
          cases hpace : (q.turn w).pace with
          | busy => rfl
          | waiting => exact absurd (.inr hpace) hbusy
        refine ((hq place).goesOn hpace).imp_right fun hstarts => ⟨fun h => hstarts.1 ((hfresh q).mp h), ?_⟩
        rw [heq]
        exact (hfresh _).mpr hstarts.2
    · have hat : (joining m g seen (.running q :: rest)).takesAt (i :: place) w = false :=
        takesAt_of_path (by rw [hpath]; exact fun h => hi (List.cons.inj h).1.symm) w
      refine ⟨hat ▸ Nat.zero_le _, fun _ => .inl ?_⟩
      rw [hat, Bool.toNat_false, Nat.zero_add]
      rcases hturn with ⟨-, g', -, heq⟩ | ⟨-, heq⟩
      · rw [heq]
        exact left_passed _ _ i place
      · rw [heq]
        by_cases hlt : i < seen.length
        · rw [left_seen hlt]
          exact Nat.zero_le _
        · obtain ⟨j, hj⟩ : ∃ j, i - seen.length = j + 1 := ⟨i - seen.length - 1, by omega⟩
          simp only [left, if_neg hlt, hj, List.getElem?_cons_succ]
          exact Nat.le_refl _

/-- One turn takes at most one of the nodes that are left. -/
theorem turn_spends (hk : 1 ≤ k) (hp : p.Paced k) (w : World) (place : List Nat) : p.Spends place w := by
  induction hp generalizing w place with
  | @next m hm n =>
    have hat : (Process.next m n).takesAt place w = false := Bool.and_false _
    refine ⟨hat ▸ Nat.zero_le _, fun hbusy => .inl ?_⟩
    rw [hat, Bool.toNat_false, Nat.zero_add]
    simp only [turn] at hbusy ⊢
    split at hbusy
    · cases hbusy
    · rename_i hy
      rw [if_neg hy]
      cases place with
      | nil => exact Nat.le_of_eq (Interpreter.spare_counted (hm ▸ hk) hy)
      | cons => exact Nat.le_refl _
  | @counted m hm n =>
    have hturn : Kept k m ((Process.counted m n).turn w).process := by
      simp only [turn]
      split
      · exact Interpreter.interrupted_kept hm w
      · exact Interpreter.take_kept hm n w
    refine spends_own rfl ?_ hturn (.inl rfl) place
    have := Bool.toNat_le (!w.isInterrupted m.token)
    simp only [takes, left]
    omega
  | @popping m hm o => exact spends_own rfl (Nat.le_of_eq (Nat.zero_add _)) (Interpreter.pop_kept hm o w) (.inl rfl) place
  | @finalizing m hm o child hc ih =>
    cases hx : child.exit? with
    | none => exact spends_finalizing (fun place => ih w place) hx place
    | some e =>
      obtain rfl := exit?_eq_some hx
      have hparts : ((Process.finalizing m o (.settled e)).turn w).process.parts = [] := m.finalized_parts o e w
      exact spends_own rfl (Nat.le_of_eq (Nat.zero_add _)) (Interpreter.finalized_kept hm o e w) (.inr hparts) place
  | @awaiting m hm a => exact spends_own rfl (Nat.le_of_eq (Nat.zero_add _)) (Interpreter.pollAwaited_kept hm a w) (.inl rfl) place
  | @joining m hm g seen rest hseen hrest ihseen ihrest =>
    cases rest with
    | nil =>
      by_cases hpending : seen.reverse.length - (seen.reverse.filterMap Branch.exit?).length = 0
      · have hkept : Kept k m ((Process.joining m g seen []).turn w).process := by
          simp only [turn, Interpreter.endRound, if_pos hpending]
          exact Interpreter.joined_kept hm g _ _
        have hparts : ((Process.joining m g seen []).turn w).process.parts = [] := by
          simp only [turn, Interpreter.endRound, if_pos hpending]
          exact m.joined_parts _ _ _
        exact spends_own rfl (Nat.le_of_eq (Nat.zero_add _)) hkept (.inr hparts) place
      · have hat : (Process.joining m g seen []).takesAt place w = false := Bool.and_false _
        refine ⟨hat ▸ Nat.zero_le _, fun hbusy => ?_⟩
        simp only [turn, Interpreter.endRound, if_neg hpending] at hbusy
        cases hbusy
    | cons b rest =>
      cases b with
      | finished e =>
        have hat : (Process.joining m g seen (.finished e :: rest)).takesAt place w = false := Bool.and_false _
        refine ⟨hat ▸ Nat.zero_le _, fun _ => .inl ?_⟩
        rw [hat, Bool.toNat_false, Nat.zero_add]
        cases place with
        | nil => exact Nat.le_refl _
        | cons i place => exact left_passed _ _ i place
      | running q => exact spends_joining (fun place => ihrest q List.mem_cons_self w place) place
  | settled e => exact ⟨by cases place <;> exact Nat.zero_le _, fun h => by cases h⟩

/-- No interpreter has more nodes left than the interval says. -/
theorem left_le (hk : 1 ≤ k) (hp : p.Paced k) (place : List Nat) : p.left place ≤ k := by
  have spare {m : Interpreter} (hm : m.interval = k) : m.spare + 1 ≤ k := by
    unfold Interpreter.spare
    omega
  induction hp generalizing place with
  | next hm | popping hm | awaiting hm =>
    cases place with
    | nil => exact Nat.le_of_succ_le (spare hm)
    | cons => exact Nat.zero_le _
  | counted hm =>
    cases place with
    | nil => exact spare hm
    | cons => exact Nat.zero_le _
  | finalizing hm _ _ ih =>
    cases place with
    | nil => exact Nat.le_of_succ_le (spare hm)
    | cons i place =>
      simp only [left]
      split
      · exact ih place
      · exact Nat.zero_le _
  | joining hm g _ _ _ ihrest =>
    cases place with
    | nil => exact Nat.le_of_succ_le (spare hm)
    | cons i place =>
      simp only [left]
      split
      · exact Nat.zero_le _
      · split
        · rename_i q hq
          exact ihrest q (List.mem_of_getElem? hq) place
        · exact Nat.zero_le _
  | settled e => cases place <;> exact Nat.zero_le _

/-! ## Runs -/

namespace Run

variable {R : World → World → Prop} {v : World} {h b h₁ h₂ : History}

/-- All interpreters inside a process yield at the same interval throughout a run. -/
theorem paced (run : Run R p w h q v) (hp : p.Paced k) : q.Paced k := by
  induction run with
  | done => exact hp
  | turn _ _ ih => exact ih (turn_paced hp _)
  | moved _ _ ih => exact ih hp

/-- A run comes to the end of any of its parts, and goes on from there. -/
theorem cut (run : Run R p w (h₁ ++ h₂) q v) : ∃ p' w', Run R p w h₁ p' w' ∧ Run R p' w' h₂ q v := by
  generalize hh : h₁ ++ h₂ = h at run
  induction run generalizing h₁ with
  | done p w =>
    obtain ⟨rfl, rfl⟩ := List.append_eq_nil_iff.mp hh
    exact ⟨p, w, .done p w, .done p w⟩
  | @turn p q w v h hp run ih =>
    cases h₁ with
    | nil =>
      rw [List.nil_append] at hh
      exact ⟨p, w, .done p w, hh ▸ .turn hp run⟩
    | cons y h₁ =>
      obtain ⟨rfl, htail⟩ := List.cons.inj hh
      obtain ⟨p', w', first, second⟩ := ih htail
      exact ⟨p', w', .turn hp first, second⟩
  | moved hm _ ih =>
    obtain ⟨p', w', first, second⟩ := ih hh
    exact ⟨p', w', .moved hm first, second⟩

/-- As long as control is not given back, and no other interpreter starts at a place, no more nodes are taken there than were
left. -/
theorem countP_takesAt (hk : 1 ≤ k) (run : Run R p w h q v) (hp : p.Paced k) (hpre : b <+: h) (hb : b.Unbroken)
    {place : List Nat} (hone : ∀ y ∈ b.dropLast, ¬ y.1.StartsAt place y.2) :
    b.countP (fun y => y.1.takesAt place y.2) ≤ p.left place := by
  induction run generalizing b with
  | done => 
    rw [List.prefix_nil.mp hpre]
    exact Nat.zero_le _
  | moved _ _ ih => exact ih hp hpre hb hone
  | @turn p q w v h _ run ih =>
    have hspends := turn_spends hk hp w place
    cases b with
    | nil => exact Nat.zero_le _
    | cons y b =>
      obtain ⟨rfl, hpre'⟩ := List.cons_prefix_cons.mp hpre
      have hat : (if p.takesAt place w = true then 1 else 0) = (p.takesAt place w).toNat := by
        cases p.takesAt place w <;> rfl
      rw [List.countP_cons, hat]
      cases b with
      | nil =>
        rw [List.countP_nil, Nat.zero_add]
        exact hspends.taken
      | cons z b =>
        obtain ⟨h', rfl⟩ := hpre'
        have hbusy : (p.turn w).pace = .busy := hb (p, w) (by simp)
        have hrest := ih (turn_paced hp w) (List.prefix_append _ _) (fun y hy => hb y (by simp [hy]))
          fun y hy => hone y (by simp [hy])
        have hleft := (hspends.goesOn hbusy).resolve_right (hone (p, w) (by simp))
        omega

end Run

/-- What a poll does is a run in which nobody else has a say, and control is given back at its end only. -/
theorem poll_unbroken {R : World → World → Prop} (n : Nat) (w : World) (hp : p.exit? = none) :
    ∃ h, Run R p w h (p.poll n w).1 (p.poll n w).2 ∧ h.Unbroken := by
  induction n generalizing p w with
  | zero => exact ⟨[], .done _ _, nofun⟩
  | succ n ih =>
    unfold poll
    have hone : Run R p w [(p, w)] (p.turn w).process (p.turn w).world := .one w hp
    split
    · rename_i ht
      rw [ht] at hone
      exact ⟨_, hone, nofun⟩
    · rename_i ht
      rw [ht] at hone
      exact ⟨_, hone, nofun⟩
    · rename_i p' w' hns ht
      rw [ht] at hone
      obtain ⟨h, run, hb⟩ := ih w' (exit?_eq_none fun e he => hns e he)
      refine ⟨_, hone.trans run, fun y hy => ?_⟩
      cases h with
      | nil => nomatch hy
      | cons z h =>
        rcases List.mem_cons.mp hy with rfl | hy
        · rw [ht]
        · exact hb y hy

end Process

/-- Between two moments at which the task of a run gives control back to the scheduler, no interpreter of the run takes more
nodes than the interval says: neither that of the main program, nor any that runs a finalizer or a branch, at whatever place in
the run. It is the same interpreter that is at work at a place until another one starts there. -/
theorem nodes_between_yields {R : World → World → Prop} {k : Nat} (hk : 1 ≤ k) {n : Node} {env : Environment} {t : TokenId}
    {w v : World} {h₁ b h₂ : History} {q : Process} (run : Process.Run R (.start n env t k) w (h₁ ++ b ++ h₂) q v)
    (hb : b.Unbroken) {place : List Nat} (hone : ∀ y ∈ b.dropLast, ¬ y.1.StartsAt place y.2) :
    b.countP (fun y => y.1.takesAt place y.2) ≤ k := by
  rw [List.append_assoc] at run
  obtain ⟨p', w', first, second⟩ := run.cut
  have hp : p'.Paced k := first.paced (.start rfl n env t)
  exact (second.countP_takesAt hk hp (List.prefix_append b h₂) hb hone).trans (p'.left_le hk hp place)

/-- A group of three branches with a node each, in a run that yields at every second node. -/
def threeBranches : Process := .start (.all [.succeed .unit, .succeed .unit, .succeed .unit]) (.plain .null) 0 2

/-- What its task does before it gives control back for the first time. -/
def threeBranchesPoll : History × Process × World := threeBranches.alone 13 (World.newToken default).2

/-- Whether control is given back can be looked up in the turns. -/
theorem History.unbroken_of_all {h : History} (hall : (h.dropLast.all fun y => (y.1.turn y.2).pace == .busy) = true) :
    h.Unbroken := fun y hy => eq_of_beq (List.all_eq_true.mp hall y hy)

/-- The second branch, from the start of the group on. -/
theorem nodes_between_yields_threeBranches :
    Process.Run Eq threeBranches (World.newToken default).2 (threeBranchesPoll.1.take 2 ++ threeBranchesPoll.1.drop 2 ++ [])
        threeBranchesPoll.2.1 threeBranchesPoll.2.2 ∧
      (threeBranchesPoll.1.drop 2).countP (fun y => y.1.takesAt [1] y.2) = 1 ∧
        (threeBranchesPoll.1.drop 2).countP (fun y => y.1.takesAt [1] y.2) ≤ 2 := by
  have run : Process.Run Eq threeBranches (World.newToken default).2 (threeBranchesPoll.1.take 2 ++ threeBranchesPoll.1.drop 2 ++ [])
      threeBranchesPoll.2.1 threeBranchesPoll.2.2 := by
    rw [List.append_nil, List.take_append_drop]
    exact Process.alone_run 13 _ _
  refine ⟨run, rfl, nodes_between_yields (by decide) run (History.unbroken_of_all rfl) ?_⟩
  iterate 4
    refine List.forall_mem_cons.mpr ⟨fun h => ?_, ?_⟩
    · exact h.1 ⟨_, _, _, _, rfl⟩
  iterate 6
    refine List.forall_mem_cons.mpr ⟨fun h => ?_, ?_⟩
    · obtain ⟨-, _, _, _, _, hat⟩ := h
      nomatch hat
  exact List.forall_mem_nil _

/-- Before its task gives control back for the first time, the run takes more nodes than the interval says. -/
theorem nodes_of_all_branches :
    Process.Run Eq threeBranches (World.newToken default).2 threeBranchesPoll.1 threeBranchesPoll.2.1 threeBranchesPoll.2.2 ∧
      threeBranchesPoll.1.Unbroken ∧ 2 < threeBranchesPoll.1.countP (fun y => y.1.takes y.2) := by
  have hcount : threeBranchesPoll.1.countP (fun y => y.1.takes y.2) = 4 := rfl
  exact ⟨Process.alone_run 13 _ _, History.unbroken_of_all rfl, by omega⟩

end Interruptible
