import Interruptible.Proofs.Machine.FinalizerFailures
import Interruptible.Proofs.Machine.FanIn

/-!
# Groups that are cancelled from outside

A branch that unwinds keeps the failures of its finalizers for its exit, as every interpreter does. What becomes of that exit
depends on the token of the surroundings when the group has been joined. If that token has not been tripped, all failures of
the branches, other than interruption alone, are inside the cause with which the interpreter goes on. If it has been tripped,
the interpreter unwinds without a look at the exits of the branches: its own exit has interruption and the failures of its own
later finalizers, and nothing of the branches (`branch_failures_kept`).
-/

namespace Interruptible

/-- What becomes of the failures of finalizers, in the exit to which the turns of an interpreter have led. -/
structure History.Reports (h : History) (x : Exit Value Payload) : Prop where
  /-- From the moment on at which interruption has been observed, every failure of a finalizer is in the exit. -/
  own : ∀ i p m u, h[i]? = some (p, u) → p.Pops m .interruption →
    x = .failure (Cause.interrupt.andThen ((History.finalizerFailures (h.drop i)).foldl Cause.andThen m.suppressed))
  /-- If the token has been tripped when a group has been joined, the exit has nothing of the branches. -/
  cancelled : ∀ (i : Nat) (m : Interpreter) (g : Group) (seen : List Branch) (exits : List (Exit Value Payload)) (u : World),
    h[i]? = some (.joining m g seen [], u) → seen.reverse = exits.map .finished →
      (g.unlink (g.afterRound seen.reverse u)).isInterrupted m.token = true →
        x = .failure (Cause.interrupt.andThen ((History.finalizerFailures (h.drop (i + 1))).foldl Cause.andThen .empty))
  /-- Otherwise the failures of the branches are inside the cause with which the interpreter goes on. -/
  joined : ∀ (i : Nat) (m : Interpreter) (g : Group) (seen : List Branch) (exits : List (Exit Value Payload)) (u : World),
    h[i]? = some (.joining m g seen [], u) → seen.reverse = exits.map .finished →
      (g.unlink (g.afterRound seen.reverse u)).isInterrupted m.token = false →
        ∀ c, .failure c ∈ exits → c.isInterruptedOnly = false → c.isEmpty = false →
          ∃ c' u', h[i + 1]? = some (.next m (.fail c'), u') ∧ c.Inside c'

/-- The turn in which a group has been joined. -/
theorem Process.turn_joined {m : Interpreter} {g : Group} {seen : List Branch} {exits : List (Exit Value Payload)} {w : World}
    (h : seen.reverse = exits.map .finished) :
    Process.turn (.joining m g seen []) w = m.joined g exits (g.afterRound seen.reverse w) := by
  have hexits : seen.reverse.filterMap Branch.exit? = exits := by
    rw [h, List.filterMap_map]
    exact List.filterMap_some
  have hall : seen.reverse.length - exits.length = 0 := by
    rw [h, List.length_map, Nat.sub_self]
  simp only [Process.turn, Interpreter.endRound_eq, hexits, if_pos hall]

/-- The failure of a branch, other than interruption alone, is inside the cause of the group. -/
theorem Verdict.failure_inside {exits : List (Exit Value Payload)} {c : Cause Value} (hc : .failure c ∈ exits)
    (hi : c.isInterruptedOnly = false) (hn : c.isEmpty = false) : ∃ c', Verdict.ofExits exits = .failed c' ∧ c.Inside c' := by
  have hmem : c ∈ trueFailures exits :=
    List.mem_filter.mpr ⟨List.mem_filterMap.mpr ⟨_, hc, rfl⟩, by rw [hi]; rfl⟩
  unfold Verdict.ofExits
  split
  · rename_i c₀ rest heq
    rw [heq] at hmem
    refine ⟨_, rfl, Cause.Inside.foldl_beside hn ?_⟩
    rcases List.mem_cons.mp hmem with rfl | hmem
    · exact .inl .whole
    · exact .inr hmem
  · rename_i hnil
    rw [hnil] at hmem
    nomatch hmem

theorem Process.Run.reports {R : World → World → Prop} {n : Node} {env : Environment} {t : TokenId} {k : Nat} {w v : World}
    {h : History} {x : Exit Value Payload} (run : Run R (.start n env t k) w h (.settled x) v) : h.Reports x where
  own i p m u hi hp := by
    have hdrop := run.drop (I := fun _ => True) (fun _ _ _ _ => trivial) hi (fun _ _ _ => trivial) trivial
    exact hdrop.2.exit_of_interrupted hp
  cancelled i m g seen exits u hi hexits ht := by
    have hs : m.suppressed = .empty :=
      (run.suppressed_eq_empty _ (List.mem_of_getElem? hi)).elim (fun hi => absurd hi id) fun hs => hs m rfl
    have hpops : (Process.turn (.joining m g seen []) u).process.Pops m .interruption := by
      rw [turn_joined hexits, Interpreter.joined_eq, if_pos ht]
      exact ⟨rfl, rfl⟩
    have := (run.after hi).exit_of_interrupted hpops
    rwa [hs] at this
  joined i m g seen exits u hi hexits ht c hc honly hempty := by
    obtain ⟨c', hverdict, hinside⟩ := Verdict.failure_inside hc honly hempty
    have hnext : (Process.turn (.joining m g seen []) u).process = .next m (.fail c') := by
      rw [turn_joined hexits, Interpreter.joined_eq, if_neg (Bool.eq_false_iff.mp ht), hverdict]
    have hrun := run.after hi
    rw [hnext] at hrun
    obtain ⟨u', h', heq, -, -⟩ := hrun.uncons (I := fun _ => True) (fun _ _ _ _ => trivial) rfl nofun trivial
    refine ⟨c', u', ?_, hinside⟩
    have hfirst : (h.drop (i + 1))[0]? = some (.next m (.fail c'), u') := by rw [heq]; rfl
    rwa [List.getElem?_drop] at hfirst

/-- What becomes of the failures of finalizers in the exit of every interpreter of a run that has settled, that of the run
itself and those at every depth of nested groups, whatever the others do to the world. -/
theorem branch_failures_kept {R : World → World → Prop} {n : Node} {env : Environment} {t : TokenId} {k : Nat}
    {w v : World} {h : History} {p : Process} (run : Process.Run R (.start n env t k) w h p v) :
    (∀ x, p = .settled x → h.Reports x) ∧
      ∀ x, Process.Within (.settled x) p →
        ∃ (n' : Node) (env' : Environment) (t' : TokenId) (k' : Nat) (w' : World) (h' : History) (v' : World),
          Process.Run World.Anyhow (.start n' env' t' k') w' h' (.settled x) v' ∧ h'.Sublist h.turns ∧ h'.Reports x := by
  constructor
  · rintro x rfl
    exact run.reports
  · intro x hx
    obtain ⟨n', env', t', k', w', h', v', run', hs⟩ := run.nested hx
    exact ⟨n', env', t', k', w', h', v', run', hs, run'.reports⟩

/-- A group of one branch, which waits in vain and has a finalizer that fails. -/
def vainGroup : Node :=
  .all [.ensuring (.liftPromise (fun _ => return .never) fun x => return .fail x) (.fail (.fail (.str "close")))]

/-- The turns of this group and what they lead to, if the token of its surroundings is tripped while it waits. -/
def vainRun : History × Process × World :=
  let (h, p, w) := Process.alone 8 (.start vainGroup (.plain .null) 0 9) (World.newToken default).2
  let (h', q, v) := p.alone 40 (w.interrupt 0)
  (h ++ h', q, v)

theorem vainRun_run :
    Process.Run World.Later (.start vainGroup (.plain .null) 0 9) (World.newToken default).2 vainRun.1 (.settled .interrupted)
      vainRun.2.2 :=
  (Process.alone_run 8 _ _).trans (.moved (World.interrupt_later 0 _) (Process.alone_run 40 _ _))

theorem branch_failures_kept_vainGroup :
    ∃ (h : History) (v : World),
      Process.Run World.Later (.start vainGroup (.plain .null) 0 9) (World.newToken default).2 h (.settled .interrupted) v ∧
        h.Reports .interrupted :=
  ⟨_, _, vainRun_run, (branch_failures_kept vainRun_run).1 _ rfl⟩

/-- The finalizer of a branch fails while the branch unwinds, as the exit of the branch shows, and the exit of the run does
not show it. -/
theorem branch_failure_lost :
    ∃ (h : History) (x : Exit Value Payload) (v : World) (m : Interpreter) (g : Group) (u : World),
      Process.Run World.Later (.start vainGroup (.plain .null) 0 9) (World.newToken default).2 h (.settled x) v ∧
        h[15]? = some (.joining m g [.finished (.failure (.then .interrupt (.fail (.str "close"))))] [], u) ∧
          u.isInterrupted m.token = true ∧ ∀ c, x = .failure c → ¬ (Cause.fail (.str "close")).Inside c := by
  refine ⟨_, _, _, _, _, _, vainRun_run, rfl, rfl, fun c hx hc => ?_⟩
  obtain rfl := Exit.failure.inj hx
  nomatch hc

end Interruptible
