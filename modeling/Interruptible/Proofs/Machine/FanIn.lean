import Interruptible.Proofs.Machine.Nested

/-!
# Groups

How a group goes, from the moment its branches start: as long as it has not ended, every branch is an interpreter that has
come from its own start and has not settled, or has been polled until it settled, and then its exit was recorded once, in the
branch's own place, and the branch has not been polled since. The group ends when all branches have finished, and what it
comes to depends on their exits in the order of the branches, and on whether the surrounding token has been tripped
(`group_outcome`). The rest of the world may do as it pleases in between.
-/

namespace Interruptible

/-- Something that happens to a branch of a group, given by its place. -/
inductive BranchEvent where
  /-- The branch takes a turn. -/
  | polled (i : Nat)
  /-- The exit of the branch is recorded. -/
  | recorded (i : Nat) (e : Exit Value Payload)

/-- The place of the branch to which something happens. -/
def BranchEvent.index : BranchEvent → Nat
  | .polled i => i
  | .recorded i _ => i

/-- What a turn of a process does to the branches of the group that it is joining. -/
def Process.branchEvents : Process → World → List BranchEvent
  | .joining _ _ seen (.running q :: _), w =>
    .polled seen.length :: ((q.turn w).process.exit?.map (.recorded seen.length)).toList
  | _, _ => []

/-- What has happened to one branch of a group in the course of some turns. -/
def History.branchEvents (h : History) (i : Nat) : List BranchEvent :=
  (h.flatMap fun x => x.1.branchEvents x.2).filter (·.index == i)

/-- What the turns so far show of the branch in one place, which has started as the process given. -/
inductive Branch.Shown (among : History) (start : Process) (i : Nat) : Branch → Prop where
  /-- It has been polled, has not settled, and nothing has been recorded for it. -/
  | running (polls : Nat) {q : Process} (he : among.branchEvents i = List.replicate polls (.polled i))
      (hq : q.exit? = none) (ht : Process.Traced among.turns start q) : Shown among start i (.running q)
  /-- It has been polled until it settled, and what was recorded for it, once and at the end, is its exit. -/
  | finished (polls : Nat) {e : Exit Value Payload}
      (he : among.branchEvents i = List.replicate (polls + 1) (.polled i) ++ [.recorded i e])
      (ht : Process.Traced among.turns start (.settled e)) : Shown among start i (.finished e)

/-- What holds of the branches of a group in the course of its turns. -/
structure Interpreter.Joining (m : Interpreter) (children : List Node) (token : TokenId) (among : History)
    (branches : List Branch) : Prop where
  length : branches.length = children.length
  shown : ∀ (i : Nat) (n : Node) (b : Branch), children[i]? = some n → branches[i]? = some b →
    b.Shown among (.start n m.env token m.interval) i

/-- How an interpreter goes on when the branches of its group have ended with these exits, in a world `u`. -/
inductive Interpreter.JoinedAs (m : Interpreter) (exits : List (Exit Value Payload)) (u : World) (t : Turn) : Prop where
  /-- The surrounding token has been tripped. -/
  | interrupted (hi : u.isInterrupted m.token = true) (hp : t.process = .popping m .interruption)
  /-- All branches have succeeded: their values are collected in their order. -/
  | succeeded (values : List Payload) (hi : u.isInterrupted m.token = false) (he : exits = values.map .success)
      (hp : t.process = .next m (.succeed (.list values))) (hw : t.world = u)
  /-- Some have failed, and not by interruption alone: the causes of these are combined in their order. -/
  | failed (c : Cause Value) (rest : List (Cause Value)) (hi : u.isInterrupted m.token = false)
      (he : (exits.filterMap Exit.cause?).filter (fun c => !c.isInterruptedOnly) = c :: rest)
      (hp : t.process = .next m (.fail (rest.foldl Cause.beside c))) (hw : t.world = u)
  /-- Some have failed, all of these by interruption alone: the surrounding token is tripped. -/
  | cancelled (hi : u.isInterrupted m.token = false) (hf : ∃ c, .failure c ∈ exits)
      (he : ∀ c, .failure c ∈ exits → c.isInterruptedOnly = true) (hp : t.process = .popping m .interruption)
      (hw : t.world.isInterrupted m.token = true)

/-- How far an interpreter has come that joins a group: the group is under way, or it has ended with a turn of the
interpreter, and the run has gone on from there. -/
inductive Interpreter.Joins (R : World → World → Prop) (m : Interpreter) (children : List Node) (token : TokenId) :
    History → Process → World → Prop where
  | underWay {g : Group} {h : History} {seen rest : List Branch} {v : World} (hg : g.token = token)
      (hb : m.Joining children token h (seen.reverse ++ rest)) : Joins R m children token h (.joining m g seen rest) v
  | ended {g : Group} {h h' : History} {seen : List Branch} {w v : World} {p : Process} {exits : List (Exit Value Payload)}
      (hg : g.token = token) (hs : seen.reverse = exits.map .finished)
      (hb : m.Joining children token h (exits.map .finished))
      (ho : m.JoinedAs exits (g.unlink (g.afterRound (exits.map .finished) w)) (Process.turn (.joining m g seen []) w))
      (run : Process.Run R (Process.turn (.joining m g seen []) w).process (Process.turn (.joining m g seen []) w).world h' p v) :
      Joins R m children token (h ++ (.joining m g seen [], w) :: h') p v

/-! ## The outcome -/

theorem Verdict.ofExits_nil {exits : List (Exit Value Payload)} (h : trueFailures exits = []) {c : Cause Value}
    (hc : .failure c ∈ exits) : c.isInterruptedOnly = true := by
  by_cases hi : c.isInterruptedOnly = true
  · exact hi
  · have hmem : c ∈ trueFailures exits :=
      List.mem_filter.mpr ⟨List.mem_filterMap.mpr ⟨_, hc, rfl⟩, by simp [hi]⟩
    rw [h] at hmem
    nomatch hmem

theorem eq_map_success {exits : List (Exit Value Payload)} (h : exits.any Exit.isFailure = false) :
    exits = (exits.filterMap fun | .success p => some p | .failure _ => none).map .success := by
  induction exits with
  | nil => rfl
  | cons e rest ih =>
    obtain ⟨he, hrest⟩ := Bool.or_eq_false_iff.mp h
    cases e with
    | success p => exact congrArg (Exit.success p :: ·) (ih hrest)
    | failure c => nomatch he

/-- What a joined group comes to. -/
theorem Interpreter.joined_as (m : Interpreter) (g : Group) (exits : List (Exit Value Payload)) (w : World)
    (ht : m.token < (g.unlink w).tokens.size) : m.JoinedAs exits (g.unlink w) (m.joined g exits w) := by
  rw [joined_eq]
  split
  · rename_i hi
    exact .interrupted hi rfl
  · rename_i hi
    have hi := Bool.eq_false_iff.mpr hi
    unfold Verdict.ofExits
    split
    · rename_i values hv
      split at hv
      · nomatch hv
      · split at hv
        · nomatch hv
        · rename_i hany
          obtain rfl := Verdict.succeeded.inj hv
          exact .succeeded _ hi (eq_map_success (Bool.eq_false_iff.mpr hany)) rfl rfl
    · rename_i c hv
      split at hv
      · rename_i c' rest hc
        obtain rfl := Verdict.failed.inj hv
        exact .failed c' rest hi hc rfl rfl
      · split at hv <;> nomatch hv
    · rename_i hv
      split at hv
      · nomatch hv
      · rename_i hnil
        split at hv
        · rename_i hany
          obtain ⟨e, he, hef⟩ := List.any_eq_true.mp hany
          cases e with
          | success p => nomatch hef
          | failure c =>
            exact .cancelled hi ⟨c, he⟩ (fun c hc => Verdict.ofExits_nil hnil hc) rfl
              ((World.record_later _ _).latched _ (World.isInterrupted_interrupt ht))
        · nomatch hv

/-! ## One turn of a group -/

theorem History.branchEvents_concat (h : History) (x : Process × World) (i : Nat) :
    (h ++ [x]).branchEvents i = h.branchEvents i ++ (x.1.branchEvents x.2).filter (·.index == i) := by
  simp [History.branchEvents]

theorem History.turns_concat (h : History) (x : Process × World) : (h ++ [x]).turns = h.turns ++ x.1.turns x.2 := by
  simp [History.turns]

/-- The branch that a process makes: a process that has settled is a finished branch. -/
def Branch.ofProcess (p : Process) : Branch :=
  match p.exit? with
  | some e => .finished e
  | none => .running p

theorem Branch.ofProcess_running {p : Process} (hp : p.exit? = none) : Branch.ofProcess p = .running p := by
  simp only [Branch.ofProcess, hp]

/-- A turn in which nothing happens to a branch. -/
theorem Branch.Shown.later {among : History} {start : Process} {i : Nat} {b : Branch} (h : b.Shown among start i)
    {x : Process × World} (hx : (x.1.branchEvents x.2).filter (·.index == i) = []) : b.Shown (among ++ [x]) start i := by
  have hturns : among.turns.Sublist (among ++ [x]).turns := by
    rw [History.turns_concat]
    exact List.sublist_append_left _ _
  have hevents : (among ++ [x]).branchEvents i = among.branchEvents i := by
    rw [History.branchEvents_concat, hx, List.append_nil]
  cases h with
  | running polls he hq ht => exact .running polls (by rw [hevents, he]) hq (ht.mono hturns)
  | finished polls he ht => exact .finished polls (by rw [hevents, he]) (ht.mono hturns)

/-- A turn of the branch itself. -/
theorem Branch.Shown.polled {among : History} {start : Process} {m : Interpreter} {g : Group} {seen rest : List Branch}
    {q : Process} (h : Branch.Shown among start seen.length (.running q)) (w : World) :
    (Branch.ofProcess (q.turn w).process).Shown (among ++ [(Process.joining m g seen (.running q :: rest), w)]) start
      seen.length := by
  cases h with
  | running polls he hq ht =>
  have ht' : Process.Traced (among ++ [(Process.joining m g seen (.running q :: rest), w)]).turns start
      (q.turn w).process := by
    obtain ⟨inner, hinner⟩ := q.turns_eq hq w
    have hturns : (Process.joining m g seen (.running q :: rest)).turns w =
        (.joining m g seen (.running q :: rest), w) :: q.turns w := by
      simp only [Process.turns]
    rw [History.turns_concat, hturns, hinner]
    exact (ht.turn hq w inner).mono ((List.Sublist.refl _).append (List.sublist_cons_self _ _))
  have hevents : (among ++ [(Process.joining m g seen (.running q :: rest), w)]).branchEvents seen.length =
      List.replicate (polls + 1) (.polled seen.length) ++
        ((q.turn w).process.exit?.map (.recorded seen.length)).toList := by
    rw [History.branchEvents_concat, he, List.replicate_succ']
    simp only [Process.branchEvents]
    generalize (q.turn w).process.exit? = settled
    cases settled <;> simp [BranchEvent.index]
  generalize (q.turn w).process = q' at ht' hevents ⊢
  cases q' with
  | settled e => exact .finished polls hevents ht'
  | _ => exact .running (polls + 1) (by simpa [Process.exit?] using hevents) rfl ht'

/-- A turn in which no branch is polled. -/
theorem Interpreter.Joining.quiet {m : Interpreter} {children : List Node} {token : TokenId} {among : History}
    {branches : List Branch} (h : m.Joining children token among branches) {x : Process × World}
    (hx : x.1.branchEvents x.2 = []) : m.Joining children token (among ++ [x]) branches where
  length := h.length
  shown i n b hn hb := (h.shown i n b hn hb).later (by rw [hx]; rfl)

/-- A turn of one of the branches. -/
theorem Interpreter.Joining.polled {m : Interpreter} {children : List Node} {token : TokenId} {among : History}
    {seen rest : List Branch} {g : Group} {q : Process}
    (h : m.Joining children token among (seen.reverse ++ .running q :: rest)) (w : World) :
    m.Joining children token (among ++ [(Process.joining m g seen (.running q :: rest), w)])
      (seen.reverse ++ Branch.ofProcess (q.turn w).process :: rest) where
  length := by simpa using h.length
  shown i n b hn hb := by
    by_cases hi : i = seen.length
    · subst hi
      have hq : (seen.reverse ++ Branch.running q :: rest)[seen.length]? = some (.running q) := by simp
      have hb' : b = Branch.ofProcess (q.turn w).process := by simpa using hb.symm
      rw [hb']
      exact (h.shown _ n _ hn hq).polled w
    · have hsame : (seen.reverse ++ Branch.running q :: rest)[i]? = some b := by
        rw [← hb]
        grind
      refine (h.shown i n b hn hsame).later ?_
      have hne : seen.length ≠ i := fun h => hi h.symm
      simp only [Process.branchEvents]
      generalize (q.turn w).process.exit? = settled
      cases settled <;> simp [BranchEvent.index, hne]

/-- After a turn of a branch the group has that branch in its place. -/
theorem Process.joining_turn (m : Interpreter) (g : Group) (seen rest : List Branch) (q : Process) (w : World) :
    ∃ g' seen' rest', (Process.turn (.joining m g seen (.running q :: rest)) w).process = .joining m g' seen' rest' ∧
      g'.token = g.token ∧ seen'.reverse ++ rest' = seen.reverse ++ Branch.ofProcess (q.turn w).process :: rest := by
  simp only [Process.turn]
  split
  · rename_i e _ he
    exact ⟨_, _, _, rfl, rfl, by simp [he, Branch.ofProcess, Process.exit?]⟩
  · rename_i hns
    exact ⟨_, _, _, rfl, rfl, by rw [Branch.ofProcess_running (exit?_eq_none hns)]⟩
  · rename_i hns
    exact ⟨_, _, _, rfl, rfl, by simp [Branch.ofProcess_running (exit?_eq_none hns)]⟩

/-- Branches that have all finished are their exits. -/
theorem Branch.eq_map_finished {branches : List Branch}
    (h : branches.length - (branches.filterMap Branch.exit?).length = 0) :
    branches = (branches.filterMap Branch.exit?).map .finished := by
  induction branches with
  | nil => rfl
  | cons b rest ih =>
    have hle := List.length_filterMap_le Branch.exit? rest
    cases b with
    | running p =>
      rw [List.filterMap_cons_none rfl, List.length_cons] at h
      omega
    | finished e =>
      simp only [List.filterMap_cons, Branch.exit?, List.length_cons] at h
      exact congrArg (Branch.finished e :: ·) (ih (by omega))

/-! ## Runs of a group -/

/-- A run of an interpreter that is joining a group. -/
theorem Process.Run.joins {R : World → World → Prop} (hR : ∀ a b, R a b → World.Later a b) {m : Interpreter}
    {children : List Node} {p₀ p : Process} {w v : World} {h : History} (run : Run R p₀ w h p v) :
    ∀ (among : History) (g : Group) (seen rest : List Branch), p₀ = .joining m g seen rest →
      m.token < w.tokens.size → m.Joining children g.token among (seen.reverse ++ rest) →
        m.Joins R children g.token (among ++ h) p v := by
  induction run with
  | done p w =>
    intro among g seen rest hp _ hJ
    rw [List.append_nil, hp]
    exact .underWay rfl hJ
  | moved hm _ ih =>
    intro among g seen rest hp ht hJ
    exact ih among g seen rest hp (Nat.lt_of_lt_of_le ht (hR _ _ hm).tokens) hJ
  | @turn p q w v h hp run ih =>
    intro among g seen rest hjoin ht hJ
    subst hjoin
    have hlater := turn_later (.joining m g seen rest) w
    have ht' := Nat.lt_of_lt_of_le ht hlater.tokens
    match rest with
    | .running q :: rest =>
      obtain ⟨g', seen', rest', hp', hg, hbranches⟩ := joining_turn m g seen rest q w
      have hJ' := hJ.polled (g := g) w
      rw [← hbranches, ← hg] at hJ'
      have := ih _ g' seen' rest' hp' ht' hJ'
      rwa [hg, List.append_assoc] at this
    | .finished e :: rest =>
      have hJ' : m.Joining children g.token (among ++ [(Process.joining m g seen (.finished e :: rest), w)])
          ((Branch.finished e :: seen).reverse ++ rest) := by
        simpa using hJ.quiet (x := (.joining m g seen (.finished e :: rest), w)) rfl
      have := ih _ g _ rest rfl ht' hJ'
      rwa [List.append_assoc] at this
    | [] =>
      by_cases hpending : seen.reverse.length - (seen.reverse.filterMap Branch.exit?).length = 0
      · have hexits := Branch.eq_map_finished hpending
        have hturn : Process.turn (.joining m g seen []) w =
            m.joined g (seen.reverse.filterMap Branch.exit?) (g.afterRound seen.reverse w) := by
          simp only [Process.turn, Interpreter.endRound_eq, if_pos hpending]
        generalize seen.reverse.filterMap Branch.exit? = exits at hexits hturn
        rw [hexits] at hturn
        rw [List.append_nil, hexits] at hJ
        refine .ended rfl hexits hJ ?_ run
        rw [hturn]
        refine m.joined_as g exits _ (Nat.lt_of_lt_of_le ht ?_)
        exact ((g.afterRound_later _ w).trans (g.unlink_later _)).tokens
      · have hturn : (Process.turn (.joining m g seen []) w).process =
            .joining m { g with failed := false } [] seen.reverse := by
          simp only [Process.turn, Interpreter.endRound_eq, if_neg hpending]
        have hJ' : m.Joining children g.token (among ++ [(Process.joining m g seen [], w)]) ([].reverse ++ seen.reverse) := by
          simpa using hJ.quiet (x := (.joining m g seen [], w)) rfl
        have := ih _ { g with failed := false } [] seen.reverse hturn ht' hJ'
        rwa [List.append_assoc] at this

/-- A group, from the moment its node is taken: each branch is polled until it settles and not after that, its exit is
recorded once and in its own place, and the exits in their places decide how the interpreter goes on. -/
theorem group_outcome {R : World → World → Prop} (hR : ∀ a b, R a b → World.Later a b) {m : Interpreter}
    {children : List Node} {w v : World} {h : History} {p : Process} (ht : m.token < w.tokens.size)
    (run : Process.Run R (m.take (.all children) w).process (m.take (.all children) w).world h p v) :
    m.Joins R children w.newToken.1 h p v := by
  have hfirst : m.Joining children w.newToken.1 []
      ([].reverse ++ children.map fun n => .running (.start n m.env w.newToken.1 m.interval)) :=
    { length := by simp
      shown := fun i n b hn hb => by
        have hb' : b = .running (.start n m.env w.newToken.1 m.interval) := by
          simp only [List.reverse_nil, List.nil_append, List.getElem?_map, hn, Option.map_some] at hb
          exact (Option.some.inj hb).symm
        rw [hb']
        exact .running 0 rfl rfl (.refl _) }
  have ht' := Nat.lt_of_lt_of_le ht (m.take_later (.all children) w).tokens
  exact run.joins hR [] _ [] _ rfl ht' hfirst

/-- The branches of a group: one succeeds, one fails, and one waits in vain. -/
def mixedGroup : List Node :=
  [.succeed .unit, .fail (.fail .null), .liftPromise (fun _ => return .never) fun x => return .fail x]

/-- The group is joined in two polls: the failure of a branch in the first one stops the one that waits. -/
theorem group_outcome_mixedGroup :
    ∃ (h : History) (p : Process) (v : World),
      Interpreter.Joins World.Later { env := .plain .null, token := 0, interval := 9 } mixedGroup 1 h p v ∧
        p.exit?.map Exit.describe = some "failure" := by
  let first := Interpreter.take { env := .plain .null, token := 0, interval := 9 } (.all mixedGroup) (World.newToken default).2
  let second := first.process.poll 30 first.world
  obtain ⟨h, run⟩ := Process.poll_run (R := World.Later) 30 first.world (rfl : first.process.exit? = none)
  obtain ⟨h', run'⟩ := Process.poll_run (R := World.Later) 30 second.2 (by decide +kernel : second.1.exit? = none)
  refine ⟨h ++ h', _, _, group_outcome (fun _ _ h => h) Nat.zero_lt_one (run.trans run'), ?_⟩
  decide +kernel

end Interruptible
