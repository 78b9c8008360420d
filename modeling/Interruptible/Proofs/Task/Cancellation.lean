import Mathlib.Logic.Relation
import Interruptible.Proofs.Machine.Ending
import Interruptible.Proofs.Machine.Nested
import Interruptible.Proofs.Task.Soundness

/-!
# No cancellation is lost

A token trips while the interpreters under it are anywhere: one has yielded, one sleeps, one awaits a future that never settles,
one waits for a group. Once the system has come to rest, all of them have seen it: whoever has not settled waits for a
finalizer, or for branches that do (`no_lost_cancellation`).

A state of a system is reached by steps of the scheduler, of the clock and of the host (`System.Step`), in any order; the
scheduler may poll any of the ready tasks. Every step leaves the system sound (`System.Step.sound`).
-/

namespace Interruptible

/-- One step of a system whose tasks are polled one at a time. -/
inductive System.Step : System → System → Prop where
  /-- One of the ready tasks is polled, with so many turns that more would make no difference. -/
  | poll {s : System} {t : TaskId} {turns : Nat} (ht : t ∈ s.world.ready) (hn : ∀ k, s.poll (turns + k) t = s.poll turns t) :
    Step s (s.poll turns t)
  /-- Time passes. -/
  | advance {s : System} (time : Nat) : Step s (s.onWorld (·.advanceTo time))
  /-- Code of the host does something: it opens a gate, trips a token, registers a listener. -/
  | act {s : System} {α : Type} (a : Action α) : Step s (s.inWorld a.run).2
  /-- Something is kept under a name. -/
  | name {s : System} (names : Names) : Step s (s.onWorld fun w => { w with names })
  | newToken {s : System} : Step s (s.inWorld World.newToken).2
  | newOperation {s : System} : Step s (s.inWorld World.newOperation).2
  /-- A run is started. -/
  | launch {s : System} (r : Runtime) (n : Node) (env : Environment) (token : TokenId) : Step s (s.launch r n env token).2
  /-- Another task is started. -/
  | spawn {s : System} {j : Job} (hj : j.Fresh) (k : Option TrackerId) : Step s (s.spawn j k).2
  | track {s : System} (r : RegistryId) : Step s (s.track r).2
  | untrack {s : System} (k : TrackerId) : Step s (s.untrack k)
  | newRegistry {s : System} : Step s s.newRegistry.2
  | reset {s : System} (r : RegistryId) : Step s (s.reset r)

/-- What a system can become. -/
def System.Reachable (s : System) : Prop := Relation.ReflTransGen System.Step {} s

/-- To settle a system is to take such steps, if the polls may take enough turns. -/
theorem System.Reachable.settle {s : System} (hs : s.Reachable) (n : Nat) : ∃ turns, ∀ k, (s.settle (turns + k) n).Reachable := by
  induction n generalizing s with
  | zero => exact ⟨0, fun _ => hs⟩
  | succ n ih =>
    cases hready : s.world.ready with
    | nil =>
      refine ⟨0, fun k => ?_⟩
      rw [System.settle, hready]
      exact hs
    | cons t rest =>
      have ht : t ∈ s.world.ready := by
        rw [hready]
        exact List.mem_cons_self
      obtain ⟨turns, hturns⟩ := s.exists_turns t
      obtain ⟨turns', hrest⟩ := ih (hs.tail (.poll ht hturns))
      refine ⟨turns + turns', fun k => ?_⟩
      rw [System.settle_ready hready, Nat.add_assoc, hturns, Nat.add_left_comm]
      exact hrest (turns + k)

/-- The process of a run that has not ended. -/
def Job.process? : Job → Option Process
  | .launched p | .running p => some p
  | _ => none

/-- An interpreter inside a process that runs under a token or under the token of a group linked below it. -/
inductive Process.Under (token : TokenId) (p : Process) : Process → Prop where
  | own {q : Process} {m : Interpreter} (hq : Within q p) (hm : q.interpreter? = some m) (ht : m.token = token) : Under token p q
  | branch {m : Interpreter} {g : Group} {seen rest : List Branch} {q : Process} (h : Under token p (.joining m g seen rest))
      (hq : .running q ∈ seen ++ rest) : Under token p q

/-- An interpreter that waits for a finalizer that has not settled, or for branches each of which does. -/
inductive Process.Winding : Process → Prop where
  | finalizing (m : Interpreter) (o : Outcome) {child : Process} (h : child.exit? = none) : Winding (.finalizing m o child)
  | joining (m : Interpreter) (g : Group) {seen rest : List Branch} (hr : ∃ q, .running q ∈ seen ++ rest)
      (h : ∀ q, .running q ∈ seen ++ rest → Winding q) : Winding (.joining m g seen rest)

/-! ## Every step leaves a system sound -/

namespace System

theorem Sound.empty : Sound none none {} where
  keys := by
    rintro s x ⟨token, ht, -⟩
    nomatch ht
  polled := rfl
  jobs _ _ h := nomatch h
  apart _ _ _ _ h := nomatch h

/-- Every step keeps a system sound: the answer to a poll is that of a poll that has come to its end. -/
theorem Step.sound {s s' : System} (h : Step s s') (hs : s.Sound none none) : s'.Sound none none := by
  cases h with
  | @poll t turns _ hn =>
    obtain ⟨enough, hr⟩ := s.exists_rests t
    rw [← hn enough, Nat.add_comm, System.poll_add hr]
    exact hs.poll hr
  | advance time => exact hs.acts (f := (·.advanceTo time)) (.advanceTo _ _)
  | act a => exact hs.acts (f := fun w => (a.run w).2) (a.run_acts _)
  | name names => exact hs.acts (f := fun w => { w with names }) (.of_eq rfl rfl rfl fun _ h => h)
  | newToken => exact hs.newToken
  | newOperation => exact hs.onWorld (X := Stake.None) (f := fun w => w.newOperation.2) .newOperation fun _ _ _ _ _ _ => id
  | launch r n env token => exact hs.launch r n env token
  | spawn hj k => exact hs.spawn hj k
  | track r => exact hs.track r
  | untrack k => exact hs.untrack k
  | newRegistry => exact hs.of_eq rfl rfl
  | reset r => exact hs.reset r

/-- Every reachable system is sound. -/
theorem Reachable.sound {s : System} (hs : s.Reachable) : s.Sound none none := by
  induction hs with
  | refl => exact .empty
  | tail _ h ih => exact h.sound ih

end System

/-! ## Interpreters that wait -/

/-- A group whose surroundings have been cancelled has been cancelled. -/
theorem Group.Linked.trips {g : Group} {w : World} {token : TokenId} (hg : g.Linked w token) (ht : w.isInterrupted token = true) :
    w.isInterrupted g.token = true := by
  rcases hg.tripped with ⟨s, hs, hl⟩ | h
  · have hlatch := hl.2
    rw [(hg.link s hs).1, ht] at hlatch
    nomatch hlatch
  · exact h

namespace Process

variable {t : TaskId} {token : TokenId} {w : World} {p q : Process}

/-- What an interpreter waits for waits as well, unless it has settled. -/
theorem Idle.part (hp : p.Idle t w) (hh : p.Held w token) (hq : q ∈ p.parts) (hu : q.exit? = none) :
    q.Idle t w ∧ ∃ token', q.Held w token' := by
  cases hp with
  | counted m n _ => nomatch hq
  | awaiting m _ _ _ => nomatch hq
  | finalizing m o hc =>
    obtain rfl := List.mem_singleton.mp hq
    exact ⟨hc, hh.of_finalizing⟩
  | joining m g _ hb =>
    obtain ⟨b, hb', rfl⟩ := List.mem_map.mp hq
    cases b with
    | finished e => nomatch hu
    | running q => exact ⟨hb q hb', _, hh.of_joining.2 q hb'⟩

theorem within_settled {e : Exit Value Payload} (h : Within q (.settled e)) : q = .settled e := by
  cases h with
  | self => rfl
  | part hr _ => nomatch hr

/-- What waits inside an idle process is idle, and holds its stakes under a token of its own. -/
theorem Idle.within (hp : p.Idle t w) (hh : p.Held w token) (hq : Within q p) (hu : q.exit? = none) :
    q.Idle t w ∧ ∃ token', q.Held w token' := by
  induction hq generalizing token with
  | self => exact ⟨hp, _, hh⟩
  | @part r p hr h ih =>
    have hru : r.exit? = none := exit?_eq_none fun e he => by
      subst he
      rw [within_settled h] at hu
      nomatch hu
    obtain ⟨hr', token', hheld⟩ := hp.part hh hr hru
    exact ih hr' hheld

/-- An interpreter that waits while its task is not awake, and whose token has been tripped, waits for finalizers only. If it waited
for a future, its stopper would still be in place, since nobody has woken the task, and the token would not have been tripped. -/
theorem Idle.winding (hp : p.Idle t w) (hh : p.Held w token) (hawake : ¬ w.Awake t) (ht : w.isInterrupted token = true) :
    p.Winding := by
  induction hp generalizing token with
  | counted m n h => exact absurd h hawake
  | awaiting m _ _ h =>
    have hlatch := (h.resolve_right hawake).2
    rw [hh.of_awaiting.token, ht] at hlatch
    nomatch hlatch
  | joining m g hr _ ih =>
    obtain ⟨hg, hbranches⟩ := hh.of_joining
    exact .joining m g hr fun q hq => ih q hq (hbranches q hq) (hg.trips ht)
  | finalizing m o h _ => exact .finalizing m o h.unsettled

/-- An interpreter under a token waits, and if that token has been tripped its own one has been tripped. -/
theorem Idle.under (hp : p.Idle t w) {token' : TokenId} (hh : p.Held w token') (hq : p.Under token q)
    (ht : w.isInterrupted token = true) : q.Idle t w ∧ ∃ own, q.Held w own ∧ w.isInterrupted own = true := by
  induction hq with
  | @own q m hq hm hm' =>
    have hu : q.exit? = none := exit?_eq_none fun e he => by
      subst he
      nomatch hm
    obtain ⟨hidle, own, hheld⟩ := hp.within hh hq hu
    refine ⟨hidle, own, hheld, ?_⟩
    rw [← hheld.token_eq hm, hm', ht]
  | branch _ hb ih =>
    obtain ⟨hidle, own, hheld, hown⟩ := ih
    obtain ⟨hg, hbranches⟩ := hheld.of_joining
    cases hidle with
    | joining _ _ _ hidles => exact ⟨hidles _ hb, _, hbranches _ hb, hg.trips hown⟩

end Process

/-! ## At rest -/

/-- When no task is ready, every interpreter that runs under a tripped token, or under the token of a group linked below it,
waits for finalizers only, in every state that a system can come to. -/
theorem no_lost_cancellation {s : System} {t : TaskId} {j : Job} {p q : Process} {token : TokenId} (hs : s.Reachable)
    (hrest : s.world.ready = []) (hj : s.job? t = some j) (hp : j.process? = some p) (hq : p.Under token q)
    (ht : s.world.isInterrupted token = true) : q.Winding := by
  have hsound := hs.sound
  have hasleep : ¬ s.world.Awake t := by
    rintro (h | ⟨h, -⟩)
    · rw [hrest] at h
      nomatch h
    · rw [hsound.polled] at h
      nomatch h
  have hjob := hsound.jobs t j hj nofun
  cases j with
  | launched _ => exact absurd hjob.2 hasleep
  | running r =>
    obtain rfl := Option.some.inj hp
    obtain ⟨⟨_, hholding⟩, hidle⟩ := hjob
    obtain ⟨hidle', own, hheld, hown⟩ := hidle.under hholding.held hq ht
    exact hidle'.winding hheld hasleep hown
  | _ => nomatch hp

/-- A future that is awaited in vain, and a finalizer that awaits another one. -/
def vainCleanup : Node :=
  let vain : Node := .liftPromise (fun _ => return .never) fun x => return .fail x
  .ensuring vain vain

/-- A run of a group with such a branch, which has come to rest after it was cancelled. -/
def cancelledRun : System :=
  let s := (({} : System).inWorld World.newToken).2
  let s := (s.launch { interval := 9, registry := 0 } (.all [vainCleanup]) (.plain .null) 0).2
  let s := s.poll 40 0
  let s := (s.inWorld (Action.perform (.interrupt 0)).run).2
  s.poll 40 0

/-- The run of the group comes to rest by steps of a system. -/
theorem cancelledRun_reachable : cancelledRun.Reachable := by
  have launched : System.Reachable _ := .tail (.tail .refl .newToken)
    (.launch { interval := 9, registry := 0 } (.all [vainCleanup]) (.plain .null) 0)
  refine .tail (.tail (.tail launched (.poll List.mem_cons_self (System.poll_add fun j hj => ?_))) (.act _))
    (.poll List.mem_cons_self (System.poll_add fun j hj => ?_))
  all_goals
    obtain rfl := Option.some.inj hj
    decide

/-- The group has come to rest after it was cancelled: its branch, which waited in vain, is winding up. -/
theorem no_lost_cancellation_vainCleanup :
    ∃ (m : Interpreter) (g : Group) (q : Process),
      cancelledRun.world.ready = [] ∧ cancelledRun.job? 0 = some (.running (.joining m g [] [.running q])) ∧
        cancelledRun.world.isInterrupted 0 = true ∧ q.Winding := by
  have tripped : cancelledRun.world.isInterrupted 0 = true := rfl
  refine ⟨_, _, _, rfl, rfl, tripped, ?_⟩
  refine no_lost_cancellation cancelledRun_reachable rfl (t := 0) rfl rfl (.branch (.own .self rfl rfl) ?_) tripped
  exact List.mem_cons_self

end Interruptible
