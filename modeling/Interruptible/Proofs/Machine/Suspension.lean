import Interruptible.Proofs.Machine.Holdings
import Interruptible.Proofs.Machine.Polls

/-!
# Interpreters that wait

When the poll of a task is over, its process waits (`Process.Idle`): it has yielded, or it awaits a host future, or it waits
for a finalizer or for branches that wait in their turn. A process that has yielded has made its task ready again. One that
awaits a host future has told the operation which task to wake, and either the stopper of the operation is still in place or
the task has been woken. So if the task is not awake, no token has been tripped on which it waits.

During a poll, this holds of the branches that have had their turn in the present round (`Process.Active`).
-/

namespace Interruptible

/-- A process of a task that has had its turn and waits. -/
inductive Process.Idle (t : TaskId) (w : World) : Process → Prop where
  /-- It has yielded. -/
  | counted (m : Interpreter) (n : Node) (h : w.Awake t) : Idle t w (.counted m n)
  | awaiting (m : Interpreter) {a : Awaited} (hi : w.Issued (.operation a.op)) (ht : w.awaiter a.op = some t)
      (h : w.Live a.stopper (.operation a.op) ∨ w.Awake t) : Idle t w (.awaiting m a)
  | joining (m : Interpreter) (g : Group) {rest : List Branch} (hr : ∃ q, .running q ∈ rest)
      (h : ∀ q, .running q ∈ rest → Idle t w q) : Idle t w (.joining m g [] rest)
  | finalizing (m : Interpreter) (o : Outcome) {child : Process} (h : Idle t w child) : Idle t w (.finalizing m o child)

/-- A process of a task that is being polled: what has had its turn waits. -/
inductive Process.Active (t : TaskId) (w : World) : Process → Prop where
  | free {s : TokenId} {p : Process} (h : p.Free s) : Active t w p
  | awaiting (m : Interpreter) (a : Awaited) : Active t w (.awaiting m a)
  | joining (m : Interpreter) (g : Group) {seen rest : List Branch} (hs : ∀ q, .running q ∈ seen → Idle t w q)
      (hr : ∀ q, .running q ∈ rest → Active t w q) : Active t w (.joining m g seen rest)
  | finalizing (m : Interpreter) (o : Outcome) {child : Process} (h : Active t w child) : Active t w (.finalizing m o child)

namespace Process

variable {t : TaskId} {w w' : World} {p : Process}

/-- Of the branches of a group, those that have had their turn in a round are idle. -/
theorem Active.of_joining {m : Interpreter} {g : Group} {seen rest : List Branch}
    (h : (Process.joining m g seen rest).Active t w) :
    (∀ q, .running q ∈ seen → q.Idle t w) ∧ ∀ q, .running q ∈ rest → q.Active t w := by
  cases h with
  | free hf => nomatch hf
  | joining _ _ hs hr => exact ⟨hs, hr⟩

theorem Active.of_finalizing {m : Interpreter} {o : Outcome} {child : Process} (h : (Process.finalizing m o child).Active t w) :
    child.Active t w := by
  cases h with
  | free hf => nomatch hf
  | finalizing _ _ hc => exact hc

/-- A process that waits has not settled. -/
theorem Idle.unsettled (h : p.Idle t w) : p.exit? = none := by
  cases h <;> rfl

/-- What waits can take its turn in the next round. -/
theorem Idle.active (h : p.Idle t w) : p.Active t w' := by
  induction h with
  | counted m n _ => exact .free (.counted n rfl)
  | awaiting m _ _ _ => exact .awaiting m _
  | joining m g _ _ ih => exact .joining m g (fun _ hq => absurd hq List.not_mem_nil) ih
  | finalizing m o _ ih => exact .finalizing m o ih

section

variable {X : Stake → Prop} (h : World.Faithful X w w')

include h

/-- A process goes on being idle as long as its stakes are respected. -/
theorem Idle.onward (hp : p.Idle t w) (hx : ∀ x ∈ p.stakes, ¬ X x) : p.Idle t w' := by
  induction hp with
  | counted m n ha => exact .counted m n (h.awake t ha)
  | @awaiting m a hi ht hl =>
    have hx := hx _ (List.mem_singleton.mpr rfl)
    have ht' : w'.awaiter a.op = some t := by rw [h.awaiter a.op hi hx, ht]
    refine .awaiting m (h.issued hi) ht' ?_
    rcases hl with hl | ha
    · exact (h.live _ _ hi hx hl).imp_right fun hanswered => hanswered.2.2 t ht'
    · exact .inr (h.awake t ha)
  | @joining m g rest hr _ ih =>
    refine .joining m g hr fun q hq => ih q hq fun x hxq => hx x ?_
    exact List.mem_cons_of_mem _ (List.mem_append_right _ (Branch.stakes_subset hq hxq))
  | finalizing m o _ ih => exact .finalizing m o (ih hx)

/-- A process goes on being active as long as its stakes are respected. -/
theorem Active.onward (hp : p.Active t w) (hx : ∀ x ∈ p.stakes, ¬ X x) : p.Active t w' := by
  induction hp with
  | free hf => exact .free hf
  | awaiting m a => exact .awaiting m a
  | @joining m g seen rest hs _ ih =>
    refine .joining m g (fun q hq => (hs q hq).onward h fun x hxq => hx x ?_) fun q hq => ih q hq fun x hxq => hx x ?_
    · exact List.mem_cons_of_mem _ (List.mem_append_left _ (Branch.stakes_subset hq hxq))
    · exact List.mem_cons_of_mem _ (List.mem_append_right _ (Branch.stakes_subset hq hxq))
  | finalizing m o _ ih => exact .finalizing m o (ih hx)

end

end Process

/-- Branches none of which is unfinished have all finished. -/
theorem Branch.length_exits {bs : List Branch} (h : ∀ q, .running q ∉ bs) : (bs.filterMap Branch.exit?).length = bs.length := by
  induction bs with
  | nil => rfl
  | cons b bs ih =>
    cases b with
    | running q => exact absurd List.mem_cons_self (h q)
    | finished e =>
      have hbs := ih fun q hq => h q (List.mem_cons_of_mem _ hq)
      simp only [List.filterMap_cons, Branch.exit?, List.length_cons, hbs]

/-! ## One turn -/

/-- What a turn leaves of a process of the task that is being polled; if it makes the process wait, the process is idle. -/
structure Turn.Suspends (t : TaskId) (p : Process) (r : Turn) : Prop where
  active : r.process.Active t r.world
  idle : r.pace = .waiting → p.exit? = none → r.process.Idle t r.world

namespace Process

variable {t : TaskId} {s : TokenId} {w : World}

/-- A turn that lets an interpreter go on by itself. -/
theorem suspends_of_free {X : Stake → Prop} {p : Process} {r : Turn} (h : r.Free X w s) : r.Suspends t p where
  active := .free h.process
  idle hr := by
    rw [h.pace] at hr
    nomatch hr

/-- Taking a node does not make a process wait. -/
theorem take_suspends (m : Interpreter) (n : Node) (hw : w.KeysSound) (p : Process) : (m.take n w).Suspends t p := by
  rcases m.take_cases n hw with h | ⟨-, hpace, g, branches, hp, -, -, hb⟩ | ⟨-, hpace, a, hp, -, -⟩
  · exact suspends_of_free h
  · refine ⟨?_, fun hr => by rw [hpace] at hr; cases hr⟩
    rw [hp]
    refine .joining m g (fun _ hq => absurd hq List.not_mem_nil) fun q hq => ?_
    obtain ⟨n, env, k, hq'⟩ := hb _ hq
    rw [Branch.running.inj hq']
    exact .free (.next n rfl)
  · refine ⟨?_, fun hr => by rw [hpace] at hr; cases hr⟩
    rw [hp]
    exact .awaiting m a

/-- Popping a frame does not make a process wait. -/
theorem pop_suspends (m : Interpreter) (o : Outcome) (w : World) (p : Process) : (m.pop o w).Suspends t p := by
  rcases m.pop_cases o w with h | ⟨m', n, env, s, k, heq, -⟩
  · exact suspends_of_free h
  · rw [heq]
    exact ⟨.finalizing m' o (.free (.next n rfl)), nofun⟩

/-- A future that is pending leaves the process idle: the operation wakes its task. -/
theorem pollAwaited_suspends {m : Interpreter} {a : Awaited} (hc : w.current = some t) (ha : a.Watched w m.token)
    (p : Process) : (m.pollAwaited a w).Suspends t p := by
  rcases m.pollAwaited_cases ha with h | ⟨hquiet, rest, heq⟩
  · exact suspends_of_free h
  · rw [heq]
    refine ⟨.awaiting m _, fun _ _ => ?_⟩
    have hattend : World.Faithful (· = .operation a.op) w (w.attend a.op) := .attend rfl
    have hpoll := a.future.poll_acts a.op (w.attend a.op)
    have hissued := hattend.issued ha.holds.issued
    have hnoted : (w.attend a.op).awaiter a.op = some t := by
      have hlt : a.op < w.operations.size := ha.holds.issued
      simp only [World.awaiter, World.attend, World.modifyOperation, Array.getElem?_modify, if_true,
        Array.getElem?_eq_getElem hlt]
      exact hc
    have hlive : (w.attend a.op).Live a.stopper (.operation a.op) :=
      ha.stopped.resolve_right fun h => by rw [hquiet] at h; cases h.2
    have hnoted' : (a.future.poll a.op (w.attend a.op)).2.awaiter a.op = some t := by
      rw [hpoll.awaiter a.op hissued id, hnoted]
    refine .awaiting m (hpoll.issued hissued) hnoted' ?_
    exact (hpoll.live _ _ hissued id hlive).imp_right fun hanswered => hanswered.2.2 t hnoted'

/-- A round in which no branch settles the group leaves the process idle, since its branches are. -/
theorem endRound_suspends {m : Interpreter} {g : Group} {seen : List Branch} (hg : g.Linked w m.token)
    (hs : ∀ q, .running q ∈ seen → q.Idle t w) (p : Process) : (m.endRound g seen.reverse w).Suspends t p := by
  have hround := g.afterRound_acts seen.reverse w
  rw [Interpreter.endRound_eq]
  split
  · exact suspends_of_free (m.joined_free _ (hg.onward hround.toFaithful id))
  · rename_i hpending
    have hidle : ∀ q, .running q ∈ seen.reverse → q.Idle t (g.afterRound seen.reverse w) := fun q hq =>
      (hs q (List.mem_reverse.mp hq)).onward hround.toFaithful fun _ _ => id
    refine ⟨.joining m _ (fun _ hq => absurd hq List.not_mem_nil) fun q hq => (hidle q hq).active, fun _ _ => .joining m _ ?_ hidle⟩
    refine Classical.not_forall_not.mp fun hnone => hpending ?_
    rw [Branch.length_exits hnone, Nat.sub_self]

/-- A turn of a branch. -/
theorem joining_suspends {m : Interpreter} {g : Group} {seen rest : List Branch} {q : Process}
    (hw : w.KeysSound) (h : (joining m g seen (.running q :: rest)).Holding w s)
    (ha : (joining m g seen (.running q :: rest)).Active t w)
    (ih : q.Holding w g.token → q.Active t w → (q.turn w).Suspends t q) (p : Process) :
    (turn (.joining m g seen (.running q :: rest)) w).Suspends t p := by
  have hholding := h.branch (List.mem_append_right seen List.mem_cons_self)
  have hq := turn_holds hw hholding
  obtain ⟨-, hothers⟩ := h.apart
  obtain ⟨hs, hr⟩ := ha.of_joining
  have hsuspends := ih hholding (hr q List.mem_cons_self)
  have hs' : ∀ r, .running r ∈ seen → r.Idle t (q.turn w).world := fun r hr =>
    (hs r hr).onward hq.faithful (hothers r (List.mem_append_left _ hr))
  have hr' : ∀ r, .running r ∈ rest → r.Active t (q.turn w).world := fun r hmem =>
    (hr r (List.mem_cons_of_mem _ hmem)).onward hq.faithful (hothers r (List.mem_append_right _ hmem))
  have hactive := hsuspends.active
  simp only [turn]
  split
  · exact ⟨.joining m _ (fun r hr => hs' r (by simpa using hr)) hr', fun h => by cases h⟩
  · refine ⟨.joining m _ hs' fun r hr => ?_, fun h => by cases h⟩
    rcases List.mem_cons.mp hr with hr | hr
    · rw [Branch.running.inj hr]
      exact hactive
    · exact hr' r hr
  · rename_i hpace hns
    have hunsettled : q.exit? = none := by
      cases hx : q.exit? with
      | none => rfl
      | some e =>
        obtain rfl := exit?_eq_some hx
        exact absurd rfl (hns e)
    have hidle := hsuspends.idle hpace hunsettled
    refine ⟨.joining m _ (fun r hr => ?_) hr', fun h => by cases h⟩
    rcases List.mem_cons.mp hr with hr | hr
    · rw [Branch.running.inj hr]
      exact hidle
    · exact hs' r hr

/-- A turn of a process of the task that is being polled. -/
theorem turn_suspends {p : Process} (hw : w.KeysSound) (hc : w.current = some t) (h : p.Holding w s) (ha : p.Active t w) :
    (p.turn w).Suspends t p := by
  induction p, w using Process.turn.induct generalizing s with
  | case1 m n w m' =>
    rename_i hy
    rw [Process.turn, if_pos hy]
    exact ⟨.free (.counted n rfl), fun _ _ => .counted _ n (World.awake_wakeCurrent hc)⟩
  | case2 m n w m' =>
    rename_i hy
    rw [Process.turn, if_neg hy]
    exact ⟨.free (.counted n rfl), fun h => by cases h⟩
  | case3 m n w hi =>
    rw [Process.turn, if_pos hi]
    exact suspends_of_free (m.interrupted_free (.refl Stake.None w))
  | case4 m n w hi =>
    rw [Process.turn, if_neg hi]
    exact take_suspends m n hw _
  | case5 m o w => exact pop_suspends m o w _
  | case6 m o e w => exact suspends_of_free (m.finalized_free (X := Stake.None) o e w)
  | case7 m o child w hu ih =>
    obtain ⟨s', hchild⟩ := h.child
    have hr := ih hw hc hchild ha.of_finalizing
    rw [Process.turn]
    · exact ⟨.finalizing m o hr.active, fun hpace _ => .finalizing m o (hr.idle hpace (exit?_eq_none hu))⟩
    · exact hu
  | case8 m a w =>
    obtain rfl := h.held.token_eq rfl
    exact pollAwaited_suspends hc h.held.of_awaiting _
  | case9 m g seen w =>
    obtain rfl := h.held.token_eq rfl
    exact endRound_suspends h.held.of_joining.1 ha.of_joining.1 _
  | case10 m g seen e rest w =>
    obtain ⟨hs, hr⟩ := ha.of_joining
    exact ⟨.joining m g (fun q hq => hs q (by simpa using hq)) fun q hq => hr q (List.mem_cons_of_mem _ hq), fun h => by cases h⟩
  | case11 m g seen p rest w r e he =>
    rename_i ih
    exact joining_suspends hw h ha (ih hw hc) _
  | case12 m g seen p rest w r hpace hns =>
    rename_i ih
    exact joining_suspends hw h ha (ih hw hc) _
  | case13 m g seen p rest w r hpace hns =>
    rename_i ih
    exact joining_suspends hw h ha (ih hw hc) _
  | case14 e w => exact ⟨.free (.settled e : Free s _), fun _ hu => by cases hu⟩

end Process

/-! ## One poll -/

/-- What a poll leaves of a process of a task. -/
structure Process.Suspended (t : TaskId) (s : TokenId) (p : Process) (w : World) (q : Process) (v : World) : Prop where
  /-- Nothing that others have at stake is lost. -/
  faithful : World.Faithful (· ∈ p.stakes) w v
  stakes : ∀ x ∈ q.stakes, x ∈ p.stakes ∨ ¬ w.Issued x
  holding : q.Holding v s
  idle : q.exit? = none → q.Idle t v

/-- A poll that comes to its end leaves a process that waits, if it has not settled. -/
theorem Process.poll_suspends {t : TaskId} {s : TokenId} {n : Nat} {p : Process} {w : World} (hr : p.Rests n w)
    (hw : w.KeysSound) (hc : w.current = some t) (hu : p.exit? = none) (h : p.Holding w s) (ha : p.Active t w) :
    Suspended t s p w (p.poll n w).1 (p.poll n w).2 := by
  induction n generalizing p w with
  | zero => exact hr.elim
  | succ n ih =>
    have hholds := turn_holds hw h
    have hsuspends := turn_suspends hw hc h ha
    have hfaithful := hholds.faithful
    have hholding := h.after hholds
    have hstakes : ∀ x ∈ (p.turn w).process.stakes, x ∈ p.stakes ∨ ¬ w.Issued x := fun x hx =>
      (hholds.renews.mem hx).imp_right And.left
    have hidle := hsuspends.idle
    have hactive := hsuspends.active
    unfold Rests at hr
    unfold poll
    split
    · rename_i e v _ ht
      rw [ht] at hfaithful hholding hstakes
      exact ⟨hfaithful, hstakes, hholding, fun hu => by cases hu⟩
    · rename_i q v _ ht
      rw [ht] at hfaithful hholding hstakes hidle
      exact ⟨hfaithful, hstakes, hholding, fun _ => hidle rfl hu⟩
    · rename_i q v hns ht
      have hq : q.exit? = none := exit?_eq_none fun e he => hns e he
      rw [ht] at hfaithful hholding hstakes hactive hr
      have hrest := hr.resolve_left (fun h => h hq) |>.resolve_left fun h => by cases h
      have hpoll := ih hrest (hfaithful.keysSound hw) (hfaithful.current.trans hc) hq hholding hactive
      exact
        { faithful := hfaithful.trans hpoll.faithful fun x hi hx => (hstakes x hx).resolve_right fun hn => hn hi
          stakes := fun x hx => by
            rcases hpoll.stakes x hx with hx | hn
            · exact hstakes x hx
            · exact .inr fun hi => hn (hfaithful.issued hi)
          holding := hpoll.holding
          idle := hpoll.idle }

end Interruptible
