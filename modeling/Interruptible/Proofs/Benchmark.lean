import Interruptible.Benchmark
import Interruptible.Proofs.Task.Unfailing

/-!
# The checks of the benchmark

The chain and the groups of the benchmark are effects that cannot fail: the chain comes to the number of its steps
(`Benchmark.chain_brings`), and a group to the numbers of its branches in order (`Benchmark.group_brings`), at whatever interval
interpreters yield. So the checks that the benchmark makes of its own results never fail: where no task is under way and the
parameters are valid, there is a report if the runs settle within the bounds, and that they do not is the only reason why there
can be none (`benchmark_reports`).
-/

namespace Interruptible

namespace Benchmark

/-! ## What the parts of the benchmark come to -/

/-- A chain counts its steps. -/
theorem chain_brings (steps : Nat) : (chain steps).Brings (.value (.int steps)) := by
  induction steps with
  | zero => exact .succeed _
  | succ n ih => exact ih.map rfl

/-- A group gives the numbers of its branches in order. -/
theorem group_brings (branches latency : Nat) : (group branches latency).Brings (.list (indices branches)) :=
  .forEachPar fun _ _ => .fromFuture rfl

/-- There is something to time, and a round to time it in. -/
def Params.Valid (p : Params) : Prop := (p.steps ≠ 0 ∨ p.branches ≠ 0) ∧ p.rounds ≠ 0

instance (p : Params) : Decidable p.Valid := inferInstanceAs (Decidable (_ ∧ _))

theorem Params.validate_eq_ok {p : Params} (h : p.Valid) : p.validate = .ok () := by
  have hsome : ¬ (p.steps = 0 ∧ p.branches = 0) := by
    have := h.1
    omega
  rw [validate, if_neg hsome, if_neg h.2]
  rfl

/-- Parameters that are not valid are refused for what is wrong with them. -/
theorem Params.validate_eq_error {p : Params} (h : ¬ p.Valid) :
    p.validate = .error (if p.steps = 0 ∧ p.branches = 0 then .nothingToTime else .noRounds) := by
  unfold validate
  split
  · rfl
  · rename_i hsome
    have hrounds : p.rounds = 0 := by
      by_contra hne
      exact h ⟨by omega, hne⟩
    rw [if_pos hrounds]
    rfl

/-! ## Timing -/

/-- The call of an effect, up to its end if it comes to one within the bounds. -/
def awaited (b : Bounds) (r : Runtime) (n : Node) (s : System) : Option Ending × System :=
  (s.spawn (.call r n (.plain .null) none)).2.await b.turns b.polls s.tasks.size b.deadlines

/-- Whether the calls of effects, one after the other, all come to their ends within the bounds. -/
def settles (b : Bounds) (r : Runtime) : List Node → System → Bool
  | [], _ => true
  | n :: rest, s => (awaited b r n s).1.isSome && settles b r rest (awaited b r n s).2

/-- Effects that are timed one after the other, each of them with what it comes to, and how long they take. -/
inductive Timed (b : Bounds) (r : Runtime) : List (Node × Payload) → System → List Nat → System → Prop where
  | nil (s : System) : Timed b r [] s [] s
  | cons {n : Node} {p : Payload} {rest : List (Node × Payload)} {s next ended : System} {elapsed : Nat} {times : List Nat}
      (h : time b r n s = some (.ok p, elapsed, next)) (ht : Timed b r rest next times ended) :
    Timed b r ((n, p) :: rest) s (elapsed :: times) ended

/-- What becomes of an effect that is timed and checked: it comes to its payload and leaves no task under way, unless its call does
not come to an end. -/
inductive Passes (b : Bounds) (r : Runtime) (n : Node) (p : Payload) (s : System) : Except Error (Nat × System) → Prop where
  | unsettled (ha : (awaited b r n s).1 = none) : Passes b r n p s (.error .unsettled)
  | timed {e : Ending} {elapsed : Nat} {next : System} (ha : awaited b r n s = (some e, next))
      (ht : time b r n s = some (.ok p, elapsed, next)) (hs : next.AtRest) : Passes b r n p s (.ok (elapsed, next))

variable {b : Bounds} {r : Runtime} {s : System}

/-- An effect that cannot fail is timed just if its call comes to an end. -/
theorem time_eq {n : Node} {p : Payload} (hs : s.AtRest) (hn : n.Brings p) :
    ((awaited b r n s).1 = none ∧ time b r n s = none) ∨
      ∃ e elapsed next, awaited b r n s = (some e, next) ∧ time b r n s = some (.ok p, elapsed, next) ∧ next.AtRest := by
  have hawaited : (s.spawn (.call r n (.plain .null) none)).2.await b.turns b.polls
      (s.spawn (.call r n (.plain .null) none)).1 b.deadlines = awaited b r n s := rfl
  rcases ha : awaited b r n s with ⟨_ | e, next⟩
  · exact .inl ⟨rfl, by simp only [time, hawaited, ha]⟩
  · obtain ⟨rfl, hrest⟩ := (System.Calling.start hs hn r (.plain .null)).await ha
    exact .inr ⟨_, next.world.now - s.world.now, next, rfl, by simp only [time, hawaited, ha], hrest⟩

/-- The chain passes, since it counts its steps. -/
theorem timeChain_passes (hs : s.AtRest) (steps : Nat) :
    Passes b r (chain steps) (.value (.int steps)) s (timeChain b r steps s) := by
  unfold timeChain
  rcases time_eq hs (chain_brings steps) with ⟨ha, ht⟩ | ⟨e, elapsed, next, ha, ht, hrest⟩
  · rw [ht]
    exact .unsettled ha
  · have hcheck : (Payload.value (.int steps)).toValue = .int steps := rfl
    simp only [ht, hcheck, if_true]
    exact .timed ha ht hrest

/-- The group passes, since its branches succeed with their numbers. -/
theorem timeGroup_passes (hs : s.AtRest) (params : Params) :
    Passes b r (group params.branches params.latency) (.list (indices params.branches)) s (timeGroup b r params s) := by
  unfold timeGroup
  rcases time_eq hs (group_brings params.branches params.latency) with ⟨ha, ht⟩ | ⟨e, elapsed, next, ha, ht, hrest⟩
  · rw [ht]
    exact .unsettled ha
  · have hcheck : isList (.list (indices params.branches)) (indices params.branches) = true := beq_self_eq_true _
    simp only [ht, hcheck, if_true]
    exact .timed ha ht hrest

/-- The group of a round, and what it has to come to: the numbers of its branches in order. -/
def Params.round (p : Params) : Node × Payload := (group p.branches p.latency, .list (indices p.branches))

/-- What is timed, and what it has to come to: the chain, which has to count its steps, and the groups of all rounds. -/
def Params.parts (p : Params) : List (Node × Payload) :=
  (chain p.steps, .value (.int p.steps)) :: List.replicate p.rounds p.round

/-- The groups of the rounds that are left, when some time has been measured. -/
theorem timeGroups_eq (hs : s.AtRest) (params : Params) (rounds total : Nat) :
    if settles b r ((List.replicate rounds params.round).map (·.1)) s then
      ∃ times ended, Timed b r (List.replicate rounds params.round) s times ended ∧
        timeGroups b r params rounds total s = .ok (times.foldl (· + ·) total, ended)
    else timeGroups b r params rounds total s = .error .unsettled := by
  induction rounds generalizing s total with
  | zero => exact ⟨[], s, .nil s, rfl⟩
  | succ rounds ih =>
    have hgroup := timeGroup_passes (b := b) (r := r) hs params
    simp only [List.replicate_succ, List.map_cons, settles, timeGroups]
    generalize timeGroup b r params s = x at hgroup
    cases hgroup with
    | unsettled ha =>
      rw [Params.round, ha]
      rfl
    | @timed e elapsed next ha ht hrest =>
      have hleft := ih hrest (total + elapsed)
      rw [Params.round] at hleft ⊢
      simp only [ha, Option.isSome_some, Bool.true_and]
      split <;> rename_i hsettles
      · rw [if_pos hsettles] at hleft
        obtain ⟨times, ended, htimed, heq⟩ := hleft
        exact ⟨elapsed :: times, ended, .cons ht htimed, heq⟩
      · rw [if_neg hsettles] at hleft
        exact hleft

/-! ## The report -/

/-- The report on what was measured between two moments. -/
def Params.report (p : Params) (r : Runtime) (s ended : System) (chainTime groupTime : Nat) : Report where
  startedAt := s.world.now
  finishedAt := ended.world.now
  interval := r.interval
  params := p
  chainTime := chainTime
  groupTime := groupTime

theorem run_eq_of_valid {p : Params} (h : p.Valid) (b : Bounds) (r : Runtime) (s : System) :
    run b r p s = do
      let (chainTime, afterChain) ← timeChain b r p.steps s
      let (groupTime, ended) ← timeGroups b r p p.rounds 0 afterChain
      return (p.report r s ended chainTime groupTime, ended) := by
  rw [run, Params.validate_eq_ok h]
  rfl

/-- Parameters with nothing to time are refused before anything is run. -/
theorem run_eq_error {p : Params} (h : ¬ p.Valid) (b : Bounds) (r : Runtime) (s : System) :
    run b r p s = .error (if p.steps = 0 ∧ p.branches = 0 then .nothingToTime else .noRounds) := by
  rw [run, Params.validate_eq_error h]
  rfl

/-- A report is one on the parameters that were given, and these are valid. -/
theorem valid_of_run {p : Params} {report : Report} {ended : System} (h : run b r p s = .ok (report, ended)) :
    p.Valid ∧ report.params = p := by
  by_cases hp : p.Valid
  · refine ⟨hp, ?_⟩
    rw [run_eq_of_valid hp] at h
    cases hc : timeChain b r p.steps s with
    | error e =>
      rw [hc] at h
      nomatch h
    | ok x =>
      rw [hc] at h
      cases hg : timeGroups b r p p.rounds 0 x.2 with
      | error e =>
        simp only [bind, Except.bind, hg] at h
        nomatch h
      | ok y =>
        simp only [bind, Except.bind, hg] at h
        obtain ⟨rfl, -⟩ := Prod.mk.inj (Except.ok.inj h)
        rfl
  · rw [run_eq_error hp] at h
    nomatch h

/-- What comes of valid parameters where no task is under way. -/
theorem run_eq {p : Params} (hp : p.Valid) (hs : s.AtRest) :
    if settles b r (p.parts.map (·.1)) s then
      ∃ chainTime groupTimes ended, Timed b r p.parts s (chainTime :: groupTimes) ended ∧
        run b r p s = .ok (p.report r s ended chainTime (groupTimes.foldl (· + ·) 0), ended)
    else run b r p s = .error .unsettled := by
  have hchain := timeChain_passes (b := b) (r := r) hs p.steps
  rw [run_eq_of_valid hp]
  simp only [Params.parts, List.map_cons, settles]
  generalize timeChain b r p.steps s = x at hchain
  cases hchain with
  | unsettled ha =>
    rw [ha]
    rfl
  | @timed e elapsed next ha ht hrest =>
    have hgroups := timeGroups_eq (b := b) (r := r) hrest p p.rounds 0
    simp only [ha, Option.isSome_some, Bool.true_and]
    split <;> rename_i hsettles
    · rw [if_pos hsettles] at hgroups
      obtain ⟨times, ended, htimed, heq⟩ := hgroups
      refine ⟨elapsed, times, ended, .cons ht htimed, ?_⟩
      simp only [bind, Except.bind, heq]
      rfl
    · rw [if_neg hsettles] at hgroups
      simp only [bind, Except.bind, hgroups]

end Benchmark

open Benchmark

/-- Whatever the interval at which interpreters yield, the checks of the benchmark never fail where no task is under way. With
valid parameters and runs that settle there is a report: the chain has counted its steps, and in each round the group has given
the numbers of its branches in order. That a run does not settle within the bounds is the only other thing that can happen. With
other parameters there is an error, whatever the system is like and without a run, and so there is no report on no rounds. -/
theorem benchmark_reports (b : Bounds) (r : Runtime) (p : Params) {s : System} (hs : s.AtRest) :
    (p.Valid → settles b r (p.parts.map (·.1)) s = true →
      ∃ chainTime groupTimes ended, Timed b r p.parts s (chainTime :: groupTimes) ended ∧
        run b r p s = .ok (p.report r s ended chainTime (groupTimes.foldl (· + ·) 0), ended)) ∧
    (p.Valid → settles b r (p.parts.map (·.1)) s = false → run b r p s = .error .unsettled) ∧
    (¬ p.Valid → ∀ s, run b r p s = .error (if p.steps = 0 ∧ p.branches = 0 then .nothingToTime else .noRounds)) ∧
    ∀ s report ended, run b r p s = .ok (report, ended) → report.params.rounds ≠ 0 := by
  refine ⟨?_, ?_, ?_, ?_⟩
  · intro hp hsettles
    have heq := run_eq (b := b) (r := r) hp hs
    rwa [if_pos hsettles] at heq
  · intro hp hsettles
    have heq := run_eq (b := b) (r := r) hp hs
    rwa [hsettles, if_neg Bool.false_ne_true] at heq
  · intro hp s
    exact run_eq_error hp b r s
  · intro s report ended h
    obtain ⟨hp, hparams⟩ := valid_of_run h
    rw [hparams]
    exact hp.2

/-- Runs whose interpreters yield at every other node. -/
def briefTurns : Runtime := { interval := 2, registry := 0 }

/-- A system in which nothing has happened. -/
def freshSystem : System := (System.newRegistry {}).2

/-- Bounds that a few small runs keep within. -/
def smallBounds : Bounds := { turns := 60, polls := 20, deadlines := 3 }

/-- A short chain, and branches that need not wait. -/
def promptParams : Params := { steps := 3, branches := 3, latency := 0, rounds := 1 }

/-- No chain to speak of, and two rounds in which a branch waits. -/
def patientParams : Params := { steps := 0, branches := 1, latency := 5, rounds := 2 }

/-- A short chain with a group passes in a fresh system, and so do two rounds with a wait in them. -/
theorem benchmark_reports_small :
    freshSystem.AtRest ∧
    (∃ chainTime groupTimes ended,
      Timed smallBounds briefTurns promptParams.parts freshSystem (chainTime :: groupTimes) ended ∧
      run smallBounds briefTurns promptParams freshSystem =
        .ok (promptParams.report briefTurns freshSystem ended chainTime (groupTimes.foldl (· + ·) 0), ended)) ∧
    ∃ chainTime groupTimes ended,
      Timed smallBounds briefTurns patientParams.parts freshSystem (chainTime :: groupTimes) ended ∧
      run smallBounds briefTurns patientParams freshSystem =
        .ok (patientParams.report briefTurns freshSystem ended chainTime (groupTimes.foldl (· + ·) 0), ended) := by
  have hs : freshSystem.AtRest := fun _ _ hj => nomatch hj
  have hprompt := (benchmark_reports smallBounds briefTurns promptParams hs).1 (by decide) (by decide +kernel)
  have hpatient := (benchmark_reports smallBounds briefTurns patientParams hs).1 (by decide) (by decide +kernel)
  exact ⟨hs, hprompt, hpatient⟩

end Interruptible
