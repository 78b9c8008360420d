import Interruptible.Proofs.Machine.Unaware
import Interruptible.Proofs.Machine.FirstRound

/-!
# Groups whose branches are prompt

A group of branches each of which settles in its first poll does what the branches do one after the other, each in a run of its
own, in the order of the branches, and then puts their exits together (`prompt_group`). The runs go under a token that is linked
to nothing. In the group the token is linked to that of the surroundings; that makes no difference to a branch, unless one of
them trips the token of the surroundings (`Process.turn_unaware`).
-/

namespace Interruptible

/-- Turns that a process takes in one poll, one right after the other, and after each of which it is busy. -/
inductive Process.Stretch : Process → World → History → Process → World → Prop where
  | refl (p : Process) (w : World) : Stretch p w [] p w
  | turn {p q : Process} {w v : World} {h : History} (hp : p.exit? = none) (hb : (p.turn w).pace = .busy)
      (rest : Stretch (p.turn w).process (p.turn w).world h q v) : Stretch p w ((p, w) :: h) q v

/-- Some nodes are run one after the other, each by an interpreter of its own that settles in its first poll: the turns and the
exit of each. -/
inductive Node.RunInTurn (env : Environment) (t : TokenId) (k : Nat) :
    List Node → World → List (History × Exit Value Payload) → World → Prop where
  | nil (w : World) : RunInTurn env t k [] w [] w
  | cons {n : Node} {rest : List Node} {w u v : World} {h : History} {e : Exit Value Payload}
      {runs : List (History × Exit Value Payload)} (first : Process.Stretch (.start n env t k) w h (.settled e) u)
      (others : RunInTurn env t k rest u runs v) : RunInTurn env t k (n :: rest) w ((h, e) :: runs) v

/-- The group that an interpreter starts in a world. -/
def Interpreter.newGroup (m : Interpreter) (w : World) : Group :=
  { token := w.newToken.1, link := (w.newToken.2.react m.token (.forward w.newToken.1)).1 }

/-- The world after a group whose branches have ended: the failure of a branch has tripped the token of the group. -/
def Group.after (g : Group) (exits : List (Exit Value Payload)) (w : World) : World :=
  if exits.any Exit.isFailure then w.interrupt g.token else w

/-- The node that a group comes to: all values, or what the failures come to side by side, in the order of the branches. -/
structure Node.Gathers (exits : List (Exit Value Payload)) (n : Node) : Prop where
  success : ∀ values, exits = values.map .success → n = .succeed (.list values)
  failure : ∀ c rest, exits.filterMap Exit.cause? = c :: rest → n = .fail (rest.foldl Cause.beside c)

namespace Process

variable {p q r : Process} {w u v : World} {h h' : History}

/-- A branch settles in its turn. -/
theorem joining_settled {m : Interpreter} {g : Group} {seen rest : List Branch} {e : Exit Value Payload}
    (hs : (p.turn w).process = .settled e) :
    turn (.joining m g seen (.running p :: rest)) w =
      { process := .joining m { g with failed := g.failed || e.isFailure } (.finished e :: seen) rest
        world := (p.turn w).world } := by
  simp only [turn, hs]

/-- A branch is busy after its turn. -/
theorem joining_busy (m : Interpreter) (g : Group) (seen rest : List Branch) (hs : (p.turn w).process.exit? = none)
    (hb : (p.turn w).pace = .busy) :
    turn (.joining m g seen (.running p :: rest)) w =
      { process := .joining m g seen (.running (p.turn w).process :: rest), world := (p.turn w).world } := by
  cases hq : (p.turn w).process with
  | settled e =>
    rw [hq] at hs
    exact absurd hs (Option.some_ne_none e)
  | _ => simp only [turn, hq, hb]

namespace Stretch

theorem trans (s : Stretch p w h q u) (s' : Stretch q u h' r v) : Stretch p w (h ++ h') r v := by
  induction s with
  | refl => exact s'
  | turn hp hb _ ih => exact .turn hp hb (ih s')

theorem one (hp : p.exit? = none) (hb : (p.turn w).pace = .busy) :
    Stretch p w [(p, w)] (p.turn w).process (p.turn w).world := .turn hp hb (.refl _ _)

/-- A poll leads to a later world. -/
theorem later (s : Stretch p w h q v) : w.Later v := by
  induction s with
  | refl _ w => exact .refl w
  | turn _ _ _ ih => exact (turn_later _ _).trans ih

/-- A subscription on a token that is not tripped makes no difference. -/
theorem unaware {s : Subscription} (run : Stretch p (w.unsubscribe s) h q v) (hw : w.Allotted s)
    (ho : v.isInterrupted s.token = false) :
    ∃ h' u, Stretch p w h' q u ∧ v = u.unsubscribe s ∧ u.Allotted s ∧ h'.calls = h.calls := by
  generalize hx : w.unsubscribe s = x at run
  induction run generalizing w with
  | refl p x => exact ⟨[], w, .refl p w, hx.symm, hw, rfl⟩
  | @turn p q x v h hp hb rest ih =>
    subst hx
    have huntripped : (p.shown (w.unsubscribe s)).2.isInterrupted s.token = false :=
      Bool.eq_false_iff.mpr fun hi => nomatch (rest.later.latched _ hi).symm.trans ho
    have hsame := (turn_unaware p).same w hw huntripped
    simp only [shown, Turn.shows, Prod.mk.injEq] at hsame
    obtain ⟨⟨hprocess, hpace, hcalls⟩, hworld⟩ := hsame
    obtain ⟨h', u, run, hu, hallot, hh⟩ := ih ((turn_unaware p).allotted w hw) ho hworld.symm
    rw [hprocess] at run
    refine ⟨(p, w) :: h', u, .turn hp (hpace ▸ hb) run, hu, hallot, ?_⟩
    rw [History.calls, List.flatMap_cons, History.calls, List.flatMap_cons, hcalls]
    exact congrArg (p.calls w ++ ·) hh

/-- What a branch does until it settles, it does in its group as well, and then its exit is noted in its place. -/
theorem branch {e : Exit Value Payload} (run : Stretch p w h (.settled e) v) (hp : p.exit? = none) (m : Interpreter) (g : Group)
    (seen rest : List Branch) :
    ∃ h', Stretch (.joining m g seen (.running p :: rest)) w h'
        (.joining m { g with failed := g.failed || e.isFailure } (.finished e :: seen) rest) v ∧ h'.calls = h.calls := by
  generalize hq : Process.settled e = q at run
  induction run with
  | refl p w =>
    subst hq
    nomatch hp
  | @turn p q w v h _ hb run ih =>
    subst hq
    cases hs : (p.turn w).process.exit? with
    | some e' =>
      have hsettled := exit?_eq_some hs
      rw [hsettled] at run
      cases run with
      | turn hp' => nomatch hp'
      | refl => exact ⟨_, .turn rfl (by rw [joining_settled hsettled]) (joining_settled hsettled ▸ .refl _ _), rfl⟩
    | none =>
      obtain ⟨h', run', hh⟩ := ih hs rfl
      have hturn := joining_busy m g seen rest hs hb
      refine ⟨_, .turn rfl (by rw [hturn]) (by rw [hturn]; exact run'), ?_⟩
      rw [History.calls, List.flatMap_cons, History.calls, List.flatMap_cons]
      exact congrArg (p.calls w ++ ·) hh

end Stretch

/-- A process that settles in a turn is busy in it. -/
theorem busy_of_settling (hp : p.exit? = none) (hs : (p.turn w).process.exit? ≠ none) : (p.turn w).pace = .busy := by
  obtain ⟨m, o, rfl⟩ := popping_of_settling hp hs
  simp only [turn, Interpreter.pop]
  split
  · rfl
  · split <;> rfl

/-- A poll is over when the process settles. -/
theorem poll_settled {e : Exit Value Payload} (hs : (p.turn w).process = .settled e) (n : Nat) :
    p.poll (n + 1) w = (.settled e, (p.turn w).world) := by
  rw [poll]
  rcases hturn : p.turn w with ⟨q, u, pace⟩
  rw [hturn] at hs
  subst hs
  rfl

/-- A poll goes on as long as the process is busy. -/
theorem poll_unsettled (hs : (p.turn w).process.exit? = none) (n : Nat) :
    p.poll (n + 1) w = if (p.turn w).pace = .busy then (p.turn w).process.poll n (p.turn w).world
      else ((p.turn w).process, (p.turn w).world) := by
  rw [poll]
  rcases hturn : p.turn w with ⟨q, u, pace⟩
  rw [hturn] at hs
  cases q with
  | settled e => nomatch hs
  | _ => cases pace <;> rfl

/-- A process settles in its first poll if and only if it settles in one stretch. -/
theorem settles_in_first_poll_iff {e : Exit Value Payload} (hp : p.exit? = none) :
    (∃ n, p.poll n w = (.settled e, v)) ↔ ∃ h, Stretch p w h (.settled e) v := by
  constructor
  · rintro ⟨n, hpoll⟩
    induction n generalizing p w with
    | zero =>
      obtain rfl := (Prod.mk.inj hpoll).1
      nomatch hp
    | succ n ih =>
      cases hs : (p.turn w).process.exit? with
      | some e' =>
        have hsettled := exit?_eq_some hs
        have hone := Stretch.one hp (busy_of_settling hp (by rw [hs]; exact Option.some_ne_none e'))
        rw [poll_settled hsettled] at hpoll
        rw [hsettled, (Prod.mk.inj hpoll).1, (Prod.mk.inj hpoll).2] at hone
        exact ⟨_, hone⟩
      | none =>
        rw [poll_unsettled hs] at hpoll
        cases hb : (p.turn w).pace with
        | busy =>
          rw [if_pos hb] at hpoll
          obtain ⟨h, rest⟩ := ih hs hpoll
          exact ⟨_, .turn hp hb rest⟩
        | waiting =>
          rw [hb, if_neg Pace.noConfusion] at hpoll
          rw [(Prod.mk.inj hpoll).1] at hs
          exact absurd hs (Option.some_ne_none e)
  · rintro ⟨h, run⟩
    generalize hq : Process.settled e = q at run
    induction run with
    | refl p w =>
      subst hq
      nomatch hp
    | @turn p q w v h _ hb rest ih =>
      cases hs : (p.turn w).process.exit? with
      | some e' =>
        have hsettled := exit?_eq_some hs
        rw [hsettled] at rest
        cases rest with
        | turn hp' => nomatch hp'
        | refl => exact ⟨1, poll_settled hsettled 0⟩
      | none =>
        obtain ⟨n, hn⟩ := ih hs hq
        exact ⟨n + 1, by rw [poll_unsettled hs, if_pos hb]; exact hn⟩

end Process

/-! ## The branches -/

namespace Node.RunInTurn

variable {env : Environment} {t : TokenId} {k : Nat} {ns : List Node} {w v : World} {runs : List (History × Exit Value Payload)}

/-- Running some nodes one after the other leads to a later world. -/
theorem later (h : RunInTurn env t k ns w runs v) : w.Later v := by
  induction h with
  | nil w => exact .refl w
  | cons first _ ih => exact first.later.trans ih

/-- The branches of a group do one after the other what they do in runs of their own, and their exits are noted in their order.
The link of the group makes no difference. -/
theorem joined {s : Subscription} (h : RunInTurn env t k ns (w.unsubscribe s) runs v) (hw : w.Allotted s)
    (ho : v.isInterrupted s.token = false) (m : Interpreter) (g : Group) (seen : List Branch) :
    ∃ history u, Process.Stretch (.joining m g seen (ns.map fun n => .running (.start n env t k))) w history
        (.joining m { g with failed := g.failed || (runs.map (·.2)).any Exit.isFailure }
          ((runs.map fun r => .finished r.2).reverse ++ seen) []) u ∧
      v = u.unsubscribe s ∧ u.Allotted s ∧ history.calls = runs.flatMap fun r => r.1.calls := by
  generalize hx : w.unsubscribe s = x at h
  induction h generalizing w g seen with
  | nil => exact ⟨[], w, by simpa using .refl _ _, hx.symm, hw, rfl⟩
  | @cons n rest x y v history e runs first others ih =>
    subst hx
    have hy : y.isInterrupted s.token = false :=
      Bool.eq_false_iff.mpr fun hi => nomatch (others.later.latched _ hi).symm.trans ho
    obtain ⟨history₁, u, run, hu, hallot, hcalls⟩ := first.unaware hw hy
    obtain ⟨history₂, run₂, hcalls₂⟩ := run.branch rfl m g seen (rest.map fun n => .running (.start n env t k))
    obtain ⟨history₃, u', run₃, hu', hallot', hcalls₃⟩ :=
      ih hallot ho { g with failed := g.failed || e.isFailure } (.finished e :: seen) hu.symm
    refine ⟨history₂ ++ history₃, u', run₂.trans ?_, hu', hallot', ?_⟩
    · simpa [Bool.or_assoc] using run₃
    · rw [History.calls, List.flatMap_append, List.flatMap_cons, ← hcalls, ← hcalls₂, ← hcalls₃]
      rfl

end Node.RunInTurn

/-! ## The group -/

namespace Interpreter

variable {m : Interpreter} {w : World}

theorem newGroup_record (m : Interpreter) (w : World) (r : Record) : m.newGroup (w.record r) = m.newGroup w :=
  congrArg (fun link => ({ token := w.newToken.1, link } : Group))
    (World.react_alike (w := (w.record r).newToken.2) (v := w.newToken.2) rfl m.token (.forward w.newToken.1)).1

/-- A group whose token has not been tripped by its start is linked to the token of its surroundings. -/
theorem newGroup_linked
    (ho : (w.newToken.2.react m.token (.forward w.newToken.1)).2.isInterrupted w.newToken.1 = false) :
    ∃ s : Subscription, (m.newGroup w).link = some s ∧ s.token = m.token ∧
      (w.newToken.2.react m.token (.forward w.newToken.1)).2.Allotted s := by
  unfold newGroup
  rcases World.subscribe_cases w.newToken.2 m.token (.forward w.newToken.1) with hs | ⟨x, hx, -, hs⟩
  · have htripped : (w.newToken.2.react m.token (.forward w.newToken.1)).2.isInterrupted w.newToken.1 = true := by
      simp only [World.react, hs, Reaction.run]
      exact World.isInterrupted_interrupt w.newToken_lt
    exact absurd (htripped.symm.trans ho) Bool.true_eq_false.mp
  · refine ⟨{ token := m.token, key := x.nextKey }, by simp only [World.react, hs], rfl, ?_⟩
    simp only [World.react, hs]
    refine ⟨{ x with nextKey := x.nextKey + 1, entries := x.entries ++ [(x.nextKey, .forward w.newToken.1)] }, ?_,
      Nat.lt_succ_self _⟩
    rw [World.getElem?_modifyToken, if_pos rfl, hx]
    rfl

/-- A group is started under a link of its token, if that token has not been tripped by then. -/
theorem take_all_linked (branches : List Node)
    (ho : (m.take (.all branches) w).world.isInterrupted (m.newGroup w).token = false) :
    (m.take (.all branches) w).process = .joining m (m.newGroup w) []
        (branches.map fun n => .running (.start n m.env (m.newGroup w).token m.interval)) ∧
      (m.take (.all branches) w).pace = .busy ∧
        ∃ s : Subscription, (m.newGroup w).link = some s ∧ s.token = m.token ∧ (m.take (.all branches) w).world.Allotted s := by
  have hnew : m.newGroup (w.record (.step (Node.all branches).kind m.frames.height)) = m.newGroup w := m.newGroup_record w _
  rw [← hnew]
  exact ⟨rfl, rfl, newGroup_linked ho⟩

end Interpreter

theorem Group.after_later (g : Group) (exits : List (Exit Value Payload)) (w : World) : w.Later (g.after exits w) := by
  unfold after
  split
  · exact World.interrupt_later _ w
  · exact .refl w

/-- When the last round of a group has ended and its link has been dropped, the world is what it would be without the link. -/
theorem Group.unlink_afterRound {g : Group} {s : Subscription} (hlink : g.link = some s) {exits : List (Exit Value Payload)}
    (hfailed : g.failed = exits.any Exit.isFailure) (branches : List Branch) {u : World} (hu : u.Allotted s)
    (hgroup : (u.unsubscribe s).isInterrupted g.token = false)
    (habove : (g.after exits (u.unsubscribe s)).isInterrupted s.token = false) :
    (g.after exits (u.unsubscribe s)).Alike (g.unlink (g.afterRound branches u)) := by
  rw [World.isInterrupted_unsubscribe] at hgroup
  simp only [unlink, hlink, after, afterRound, hfailed, hgroup] at habove ⊢
  cases hany : exits.any Exit.isFailure with
  | false => exact .refl _
  | true =>
    let note := Record.branchFailed (branches.length - (branches.filterMap Branch.exit?).length)
    rw [hany] at habove
    have halike : ((u.unsubscribe s).interrupt g.token).Alike (((u.record note).unsubscribe s).interrupt g.token) :=
      World.interrupt_alike g.token rfl
    have ho : (((u.record note).unsubscribe s).interrupt g.token).isInterrupted s.token = false := by
      rw [World.isInterrupted, halike.tokens]
      exact habove
    have hsame := (World.interrupt_unaware (s := s) g.token).same (u.record note) hu ho
    rw [(Prod.mk.inj hsame).2] at halike
    exact halike

/-- How a group goes on when all its branches have ended, none of them by interruption alone, and the token of its surroundings
has not been tripped. -/
theorem Interpreter.JoinedAs.gathers {m : Interpreter} {exits : List (Exit Value Payload)} {u : World} {t : Turn}
    (h : m.JoinedAs exits u t) (ho : u.isInterrupted m.token = false)
    (hf : ∀ c, .failure c ∈ exits → c.isInterruptedOnly = false) :
    ∃ n, t.process = .next m n ∧ t.world = u ∧ n.Gathers exits := by
  have hall : ∀ c ∈ exits.filterMap Exit.cause?, (!c.isInterruptedOnly) = true := by
    intro c hc
    obtain ⟨e, he, hec⟩ := List.mem_filterMap.mp hc
    cases e with
    | success p => nomatch hec
    | failure c' =>
      obtain rfl := Option.some.inj hec
      rw [hf c' he]
      rfl
  cases h with
  | interrupted hi => nomatch hi.symm.trans ho
  | succeeded values _ he hp hw =>
    subst he
    refine ⟨_, hp, hw, fun values' hv => ?_, fun c rest hc => ?_⟩
    · have hinj : Function.Injective (Exit.success : Payload → Exit Value Payload) := fun _ _ h => Exit.success.inj h
      rw [List.map_injective_iff.mpr hinj hv]
    · rw [List.filterMap_map] at hc
      simp [Function.comp_def, Exit.cause?] at hc
  | failed c rest _ he hp hw =>
    rw [List.filter_eq_self.mpr hall] at he
    refine ⟨_, hp, hw, fun values hv => ?_, fun c' rest' hc => ?_⟩
    · subst hv
      rw [List.filterMap_map] at he
      simp [Function.comp_def, Exit.cause?] at he
    · obtain ⟨rfl, rfl⟩ := List.cons.inj (he.symm.trans hc)
      rfl
  | cancelled _ hsome he =>
    obtain ⟨c, hc⟩ := hsome
    nomatch (he c hc).symm.trans (hf c hc)

/-- An interpreter that has joined its group is busy. -/
theorem Interpreter.joined_busy (m : Interpreter) (g : Group) (exits : List (Exit Value Payload)) (w : World) :
    (m.joined g exits w).pace = .busy := by
  rw [joined_eq]
  split
  · rfl
  · split <;> rfl

/-- The last round of a group whose branches have all ended, none of them by interruption alone, under a token that has not been
tripped. -/
theorem endRound_prompt {m : Interpreter} {s : Subscription} {u : World} (g : Group) (exits : List (Exit Value Payload))
    (hlink : g.link = some s) (htoken : s.token = m.token) (hfailed : g.failed = exits.any Exit.isFailure) (hu : u.Allotted s)
    (hgroup : (u.unsubscribe s).isInterrupted g.token = false)
    (habove : (g.after exits (u.unsubscribe s)).isInterrupted m.token = false)
    (hfailures : ∀ c, .failure c ∈ exits → c.isInterruptedOnly = false) :
    ∃ n u', Process.Stretch (.joining m g (exits.map .finished).reverse []) u
        [(.joining m g (exits.map .finished).reverse [], u)] (.next m n) u' ∧
      n.Gathers exits ∧ (g.after exits (u.unsubscribe s)).Alike u' := by
  let branches := exits.map Branch.finished
  have halike := Group.unlink_afterRound hlink hfailed branches hu hgroup (htoken ▸ habove)
  have hopen : (g.unlink (g.afterRound branches u)).isInterrupted m.token = false := by
    rw [World.isInterrupted, halike.tokens]
    exact habove
  have hsize : m.token < (g.unlink (g.afterRound branches u)).tokens.size := by
    obtain ⟨x, hx, -⟩ := hu
    rw [htoken] at hx
    exact Nat.lt_of_lt_of_le (Array.getElem?_eq_some_iff.mp hx).1
      ((g.afterRound_later branches u).trans (g.unlink_later _)).tokens
  have hexits : branches.filterMap Branch.exit? = exits := by simp [branches, List.filterMap_map, Function.comp_def, Branch.exit?]
  have hturn : Process.turn (.joining m g branches.reverse []) u = m.joined g exits (g.afterRound branches u) := by
    rw [Process.turn, List.reverse_reverse, Interpreter.endRound_eq, hexits, if_pos (by simp [branches])]
  obtain ⟨n, hp, hw, hn⟩ := (m.joined_as g exits (g.afterRound branches u) hsize).gathers hopen hfailures
  have hone := Process.Stretch.one (p := .joining m g branches.reverse []) (w := u) rfl
  rw [hturn, hp, hw] at hone
  exact ⟨n, _, hone (m.joined_busy g exits _), hn, halike⟩

/-- A group of branches each of which settles in its first poll, without a yield, when the branches are run one after the other,
under a token that nothing is linked to: the world in which these runs begin is the one in which the group has been started, less
the link of its token. They must not trip that token, nor the one of the surroundings, be it by what they leave to be done when
a failure trips the token of the group, and none may end by interruption alone. Then the group calls the callbacks that these
runs call, in the order of the runs, and notes for each branch the exit of its run. It goes on, in the same poll, with all values
or with what all failures come to side by side, in the order of the branches; the failure of a branch keeps no other from being
run. -/
theorem prompt_group {m : Interpreter} {branches : List Node} {w v : World} {runs : List (History × Exit Value Payload)}
    (hruns : Node.RunInTurn m.env (m.newGroup w).token m.interval branches
      ((m.newGroup w).unlink (m.take (.all branches) w).world) runs v)
    (hgroup : v.isInterrupted (m.newGroup w).token = false)
    (habove : ((m.newGroup w).after (runs.map (·.2)) v).isInterrupted m.token = false)
    (hfailures : ∀ c, .failure c ∈ runs.map (·.2) → c.isInterruptedOnly = false) :
    ∃ g h u n u', Process.Stretch (.counted m (.all branches)) w h
        (.joining m g (runs.map fun r => .finished r.2).reverse []) u ∧
      g.token = (m.newGroup w).token ∧ (h.calls = runs.flatMap fun r => r.1.calls) ∧
        Process.Stretch (.joining m g (runs.map fun r => .finished r.2).reverse []) u
          [(.joining m g (runs.map fun r => .finished r.2).reverse [], u)] (.next m n) u' ∧
          n.Gathers (runs.map (·.2)) ∧ ((m.newGroup w).after (runs.map (·.2)) v).Alike u' := by
  have hv : v.isInterrupted m.token = false := ((m.newGroup w).after_later _ v).untripped habove
  have hlater : (m.take (.all branches) w).world.Later v := ((m.newGroup w).unlink_later _).trans hruns.later
  have hopen : w.isInterrupted m.token = false := ((m.take_later _ w).trans hlater).untripped hv
  obtain ⟨hprocess, hpace, s, hlink, htoken, hallot⟩ := m.take_all_linked branches (hlater.untripped hgroup)
  have hruns' : Node.RunInTurn m.env (m.newGroup w).token m.interval branches
      ((m.take (.all branches) w).world.unsubscribe s) runs v := by
    simpa only [Group.unlink, hlink] using hruns
  obtain ⟨h, u, run, rfl, hallot', hcalls⟩ := hruns'.joined hallot (htoken ▸ hv) m (m.newGroup w) []
  have hstart : Process.Stretch (.counted m (.all branches)) w [(.counted m (.all branches), w)]
      (m.take (.all branches) w).process (m.take (.all branches) w).world := by
    have hone := Process.Stretch.one (p := .counted m (.all branches)) (w := w) rfl
    rw [Process.turn_counted hopen] at hone
    exact hone hpace
  rw [hprocess] at hstart
  rw [List.append_nil] at run
  let exits := runs.map (·.2)
  let g : Group := { m.newGroup w with failed := exits.any Exit.isFailure }
  obtain ⟨n, u', hlast, hn, hu'⟩ := endRound_prompt g exits hlink htoken rfl hallot' hgroup habove hfailures
  rw [List.map_map] at hlast
  refine ⟨_, _, u, n, u', hstart.trans run, rfl, ?_, hlast, hn, hu'⟩
  rw [History.calls, List.flatMap_append, ← hcalls]
  simp [History.calls, Process.calls, hopen, Node.calls]

/-- Whether turns that a process takes alone are a stretch can be looked up in them. -/
theorem Process.alone_stretch (n : Nat) (p : Process) (w : World)
    (hb : ((p.alone n w).1.all fun y => (y.1.turn y.2).pace == .busy) = true) :
    Stretch p w (p.alone n w).1 (p.alone n w).2.1 (p.alone n w).2.2 := by
  induction n generalizing p w with
  | zero => exact .refl p w
  | succ n ih =>
    unfold alone at hb ⊢
    split
    · exact .refl p w
    · rename_i hp
      simp only [hp, List.all_cons, Bool.and_eq_true, beq_iff_eq] at hb
      exact .turn hp hb.1 (ih _ _ hb.2)

/-- A branch that fails, and one that logs a word. -/
def failingAndLogging : List Node :=
  [.fail (.fail (.str "first")), .succeedLazy do
    Action.perform (.log (.str "second"))
    return .ok .unit]

/-- The world in which the group has been started, less the link of its token. -/
def failingAndLoggingStart : World :=
  (groupInterpreter.newGroup (World.newToken default).2).unlink
    (groupInterpreter.take (.all failingAndLogging) (World.newToken default).2).world

/-- The branch that fails, run on its own. -/
def failingBranchRun : History × Process × World :=
  (Process.start (.fail (.fail (.str "first"))) (.plain .null) 1 9).alone 3 failingAndLoggingStart

/-- The branch that logs, run on its own after the other one. -/
def loggingBranchRun : History × Process × World :=
  (Process.start (.succeedLazy do
    Action.perform (.log (.str "second"))
    return .ok .unit) (.plain .null) 1 9).alone 5 failingBranchRun.2.2

/-- The group fails with the cause of its first branch, and the second one has logged its word. -/
theorem prompt_group_failingAndLogging :
    ∃ h u, Process.Stretch (.counted groupInterpreter (.all failingAndLogging)) (World.newToken default).2 h
        (.next groupInterpreter (.fail (.fail (.str "first")))) u ∧
      h.calls = failingBranchRun.1.calls ++ loggingBranchRun.1.calls ∧ u.log = #[.str "second"] := by
  have hfailing := Process.alone_stretch 3 (.start (.fail (.fail (.str "first"))) (.plain .null) 1 9) failingAndLoggingStart
    (by decide +kernel)
  have hlogging := Process.alone_stretch 5 (.start (.succeedLazy do
    Action.perform (.log (.str "second"))
    return .ok .unit) (.plain .null) 1 9) failingBranchRun.2.2 (by decide +kernel)
  have hruns : Node.RunInTurn (.plain .null) 1 9 failingAndLogging failingAndLoggingStart
      [(failingBranchRun.1, .failure (.fail (.str "first"))), (loggingBranchRun.1, .success .unit)] loggingBranchRun.2.2 :=
    .cons hfailing (.cons hlogging (.nil _))
  obtain ⟨g, h, u, n, u', run, -, hcalls, hlast, hn, halike⟩ :=
    prompt_group (m := groupInterpreter) (w := (World.newToken default).2) hruns rfl rfl fun c hc => by
      simp at hc
      subst hc
      rfl
  obtain rfl := hn.failure (.fail (.str "first")) [] rfl
  refine ⟨_, u', run.trans hlast, ?_, ?_⟩
  · rw [History.calls, List.flatMap_append]
    exact (List.append_nil _).trans hcalls
  · obtain ⟨_, _, _, rfl⟩ := halike.exists_eq
    rfl

end Interruptible
