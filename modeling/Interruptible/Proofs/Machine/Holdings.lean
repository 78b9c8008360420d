import Interruptible.Proofs.Machine.Ending
import Interruptible.Proofs.World.Holding

/-!
# What interpreters have at stake

An interpreter that awaits a host future has the operation at stake, and one that joins a group has the group at stake and
whatever its branches have (`Process.stakes`). This module says what one turn makes of the world, of the stakes and of their
registrations (`Process.turn_holds`): each stake belongs to one interpreter only, a turn adds new ones at most, and every
registration is either in place or has been answered (`Process.Held`).
-/

namespace Interruptible

/-- An interpreter with a token that waits for nothing, or one that has settled. -/
inductive Process.Free (t : TokenId) : Process → Prop where
  | next {m : Interpreter} (n : Node) (h : m.token = t) : Free t (.next m n)
  | counted {m : Interpreter} (n : Node) (h : m.token = t) : Free t (.counted m n)
  | popping {m : Interpreter} (o : Outcome) (h : m.token = t) : Free t (.popping m o)
  | settled (e : Exit Value Payload) : Free t (.settled e)

/-- The token of a group is tripped with that of its surroundings: its link is in place, or it has been tripped. -/
structure Group.Linked (g : Group) (w : World) (t : TokenId) : Prop where
  issued : w.Issued (.group g.token)
  link : ∀ s, g.link = some s → s.token = t ∧ w.Holds s (.group g.token)
  tripped : (∃ s, g.link = some s ∧ w.Live s (.group g.token)) ∨ w.isInterrupted g.token = true

/-- The operation of an awaited future is stopped when a token trips: its stopper is in place, or it has been stopped. -/
structure Awaited.Watched (a : Awaited) (w : World) (t : TokenId) : Prop where
  token : a.stopper.token = t
  holds : w.Holds a.stopper (.operation a.op)
  stopped : w.Live a.stopper (.operation a.op) ∨ w.isInterrupted t = true ∧ w.isFired a.op = true

/-- An interpreter with a token, all of whose stakes are registered or have been answered. -/
inductive Process.Held (w : World) : TokenId → Process → Prop where
  | free {t : TokenId} {p : Process} (h : p.Free t) : Held w t p
  | awaiting {t : TokenId} {m : Interpreter} {a : Awaited} (ht : m.token = t) (h : a.Watched w t) : Held w t (.awaiting m a)
  | joining {t : TokenId} {m : Interpreter} {g : Group} {seen rest : List Branch} (ht : m.token = t) (hg : g.Linked w t)
      (h : ∀ q, .running q ∈ seen ++ rest → Held w g.token q) : Held w t (.joining m g seen rest)
  | finalizing {t s : TokenId} {m : Interpreter} {child : Process} (o : Outcome) (ht : m.token = t) (h : Held w s child) :
      Held w t (.finalizing m o child)

namespace Process.Held

variable {w : World} {t : TokenId} {m : Interpreter}

/-- The token of a process that is held is that of its interpreter. -/
theorem token_eq {p : Process} (h : p.Held w t) (hm : p.interpreter? = some m) : m.token = t := by
  cases h with
  | free h => cases h <;> first | (obtain rfl := Option.some.inj hm; assumption) | nomatch hm
  | awaiting ht _ | joining ht _ _ | finalizing _ ht _ =>
    obtain rfl := Option.some.inj hm
    exact ht

/-- The future that a held process awaits is watched. -/
theorem of_awaiting {a : Awaited} (h : (Process.awaiting m a).Held w t) : a.Watched w t := by
  cases h with
  | free hf => nomatch hf
  | awaiting _ ha => exact ha

/-- The group that a held process joins is linked, and its branches are held under the token of the group. -/
theorem of_joining {g : Group} {seen rest : List Branch} (h : (Process.joining m g seen rest).Held w t) :
    g.Linked w t ∧ ∀ q, .running q ∈ seen ++ rest → q.Held w g.token := by
  cases h with
  | free hf => nomatch hf
  | joining _ hg hb => exact ⟨hg, hb⟩

/-- The finalizer of a held process is held under a token of its own. -/
theorem of_finalizing {o : Outcome} {child : Process} (h : (Process.finalizing m o child).Held w t) : ∃ s, child.Held w s := by
  cases h with
  | free hf => nomatch hf
  | finalizing _ _ hc => exact ⟨_, hc⟩

end Process.Held

/-! ## Lists of stakes -/

/-- A process that waits for nothing has no stakes. -/
theorem Process.Free.stakes {t : TokenId} {p : Process} (h : p.Free t) : p.stakes = [] := by
  cases h <;> rfl

/-- The stakes of two lists of branches are those of the one and those of the other. -/
theorem Branch.stakes_append (bs cs : List Branch) : Branch.stakes (bs ++ cs) = Branch.stakes bs ++ Branch.stakes cs := by
  induction bs with
  | nil => simp [Branch.stakes]
  | cons b bs ih => cases b <;> simp [Branch.stakes, ih]

/-- The stakes of branches do not depend on their order. -/
theorem Branch.stakes_reverse (bs : List Branch) : (Branch.stakes bs.reverse).Perm (Branch.stakes bs) := by
  induction bs with
  | nil => exact .refl _
  | cons b bs ih =>
    rw [List.reverse_cons, Branch.stakes_append]
    cases b with
    | running p =>
      simp only [Branch.stakes, List.append_nil]
      exact List.perm_append_comm.trans (ih.append_left _)
    | finished e => simpa [Branch.stakes] using ih

/-- The stakes of a running branch are among those of its group. -/
theorem Branch.stakes_subset {bs : List Branch} {q : Process} (h : .running q ∈ bs) {x : Stake} (hx : x ∈ q.stakes) :
    x ∈ Branch.stakes bs := by
  obtain ⟨front, back, rfl⟩ := List.append_of_mem h
  rw [Branch.stakes_append]
  exact List.mem_append_right _ (List.mem_append_left _ hx)

/-- Branches that have nothing at stake. -/
theorem Branch.stakes_eq_nil {bs : List Branch} (h : ∀ q, .running q ∈ bs → q.stakes = []) : Branch.stakes bs = [] := by
  induction bs with
  | nil => rfl
  | cons b bs ih =>
    have hbs := ih fun q hq => h q (List.mem_cons_of_mem _ hq)
    cases b with
    | running p => rw [Branch.stakes, h p List.mem_cons_self, hbs, List.append_nil]
    | finished e => rw [Branch.stakes, hbs]

/-- What becomes of a list of stakes: nothing is taken over from others, and what is added is new. -/
def World.Renews (w w' : World) (l l' : List Stake) : Prop :=
  ∀ x, l'.count x ≤ l.count x ∨ ¬ w.Issued x ∧ w'.Issued x ∧ l'.count x ≤ l.count x + 1

namespace World.Renews

variable {w w' : World} {l l' : List Stake}

/-- Stakes that are given up are renewed by nothing. -/
theorem of_nil : w.Renews w' l [] := fun x => .inl (by simp)

/-- Stakes that are only put in another order stay the same. -/
theorem of_perm (h : l'.Perm l) : w.Renews w' l l' := fun x => .inl (Nat.le_of_eq (h.count_eq x))

/-- A stake that has come up since is a new one. -/
theorem of_new {x : Stake} (h : ¬ w.Issued x) (h' : w'.Issued x) : w.Renews w' [] [x] := by
  intro y
  by_cases hy : y = x
  · subst hy
    exact .inr ⟨h, h', by simp⟩
  · exact .inl (by simp [Ne.symm hy])

/-- What renews stakes does so in every order. -/
theorem perm (h : w.Renews w' l l') {k : List Stake} (hk : k.Perm l') : w.Renews w' l k := by
  intro x
  rw [hk.count_eq x]
  exact h x

/-- The same in the midst of others. -/
theorem among (h : w.Renews w' l l') (front back : List Stake) :
    w.Renews w' (front ++ (l ++ back)) (front ++ (l' ++ back)) := by
  intro x
  simp only [List.count_append]
  rcases h x with h | ⟨hx, hx', h⟩
  · exact .inl (by omega)
  · exact .inr ⟨hx, hx', by omega⟩

/-- What is there afterwards was there before, or it is new. -/
theorem mem (h : w.Renews w' l l') {x : Stake} (hx : x ∈ l') : x ∈ l ∨ ¬ w.Issued x ∧ w'.Issued x := by
  rcases h x with h | ⟨hn, hi, -⟩
  · exact .inl (List.count_pos_iff.mp (Nat.lt_of_lt_of_le (List.count_pos_iff.mpr hx) h))
  · exact .inr ⟨hn, hi⟩

/-- Distinct stakes stay distinct when they are renewed. -/
theorem nodup (h : w.Renews w' l l') (hi : ∀ x ∈ l, w.Issued x) (hl : l.Nodup) : l'.Nodup := by
  rw [List.nodup_iff_count_le_one] at hl ⊢
  intro x
  rcases h x with h | ⟨hn, -, h⟩
  · exact Nat.le_trans h (hl x)
  · rw [List.count_eq_zero_of_not_mem fun hx => hn (hi x hx)] at h
    exact h

end World.Renews

/-! ## Registrations under what others do -/

section

variable {X : Stake → Prop} {w w' : World}

/-- A group stays linked as long as its own stake is respected. -/
theorem Group.Linked.onward {g : Group} {t : TokenId} (hg : g.Linked w t) (h : World.Faithful X w w')
    (hx : ¬ X (.group g.token)) : g.Linked w' t where
  issued := h.issued hg.issued
  link s hs := ⟨(hg.link s hs).1, (hg.link s hs).2.onward h.toOnward⟩
  tripped := by
    rcases hg.tripped with ⟨s, hs, hl⟩ | ht
    · rcases h.live s _ hg.issued hx hl with hl | ⟨-, ha⟩
      · exact .inl ⟨s, hs, hl⟩
      · exact .inr ha
    · exact .inr (h.latched _ ht)

/-- A future stays watched as long as its own stake is respected. -/
theorem Awaited.Watched.onward {a : Awaited} {t : TokenId} (ha : a.Watched w t) (h : World.Faithful X w w')
    (hx : ¬ X (.operation a.op)) : a.Watched w' t where
  token := ha.token
  holds := ha.holds.onward h.toOnward
  stopped := by
    rcases ha.stopped with hl | ⟨ht, hf⟩
    · rcases h.live _ _ ha.holds.issued hx hl with hl | ⟨ht, hanswered⟩
      · exact .inl hl
      · exact .inr ⟨ha.token ▸ ht, hanswered.1⟩
    · exact .inr ⟨h.latched t ht, h.fired _ hf⟩

/-- What others do leaves an interpreter held, if they leave alone what it has at stake. -/
theorem Process.Held.onward {t : TokenId} {p : Process} (hp : p.Held w t) (h : World.Faithful X w w')
    (hx : ∀ x ∈ p.stakes, ¬ X x) : p.Held w' t := by
  induction hp with
  | free hf => exact .free hf
  | awaiting ht ha => exact .awaiting ht (ha.onward h (hx _ (List.mem_singleton.mpr rfl)))
  | @joining t m g seen rest ht hg _ ih =>
    refine .joining ht (hg.onward h (hx _ List.mem_cons_self)) fun q hq => ih q hq fun x hxq => hx x ?_
    refine List.mem_cons_of_mem _ ?_
    rw [← Branch.stakes_append]
    exact Branch.stakes_subset hq hxq
  | finalizing o ht _ ih => exact .finalizing o ht (ih hx)

end

/-! ## One interpreter by itself -/

/-- An interpreter has gone on by itself, and waits for nothing. -/
structure Turn.Free (X : Stake → Prop) (w : World) (t : TokenId) (r : Turn) : Prop where
  process : r.process.Free t
  faithful : World.Faithful X w r.world
  pace : r.pace = .busy

/-- Code that acts on the world respects all stakes. -/
theorem World.Acts.faithful {X : Stake → Prop} {w w' : World} (h : w.Acts w') : World.Faithful X w w' :=
  h.toFaithful.mono fun _ _ h => h.elim

/-- Calling code back acts on the world as code does, whether it panics or not. -/
theorem guarded_acts (a : Action Node) (w : World) : w.Acts (guarded a w).2 := by
  have ha := a.run_acts w
  unfold guarded
  split <;> rename_i heq <;> rwa [heq] at ha

/-- Evaluating a thunk acts on the world as code does, whether it panics or not. -/
theorem evaluate_acts (thunk : Action (Except (Cause Value) Payload)) (w : World) : w.Acts (evaluate thunk w).2 := by
  have ha := thunk.run_acts w
  unfold evaluate
  split <;> rename_i heq <;> rwa [heq] at ha

namespace Interpreter

variable (m : Interpreter) {X : Stake → Prop}

/-- An interpreter that goes on with what code gives it waits for nothing. -/
theorem goOn_free (a : Action Node) {w v : World} (h : World.Faithful X w v) : (m.goOn a v).Free X w m.token where
  process := .next _ rfl
  faithful := h.trans (guarded_acts a v).toFaithful fun _ _ h => h.elim
  pace := rfl

/-- An interpreter that finds itself interrupted waits for nothing. -/
theorem interrupted_free {w v : World} (h : World.Faithful X w v) : (m.interrupted v).Free X w m.token where
  process := .popping _ rfl
  faithful := h.trans (World.Acts.record v _).toFaithful fun _ _ h => h.elim
  pace := rfl

/-- What becomes of a group when it starts. -/
structure FannedOut (w : World) (m : Interpreter) (r : Turn) : Prop where
  faithful : World.Faithful Stake.None w r.world
  pace : r.pace = .busy
  group : ∃ g branches, r.process = .joining m g [] branches ∧ g.Linked r.world m.token ∧ ¬ w.Issued (.group g.token) ∧
    ∀ b ∈ branches, ∃ n env k, b = .running (.start n env g.token k)

/-- What becomes of a host future when it starts. -/
structure Awaits (w : World) (m : Interpreter) (r : Turn) : Prop where
  faithful : World.Faithful Stake.None w r.world
  pace : r.pace = .busy
  future : ∃ a, r.process = .awaiting m a ∧ a.Watched r.world m.token ∧ ¬ w.Issued (.operation a.op)

/-- A group that starts has a linked token that did not exist before, and branches that have not begun. -/
theorem fanOut_cases (children : List Node) {w : World} (hw : w.KeysSound) : FannedOut w m (m.fanOut children w) := by
  have hnew : World.Faithful Stake.None w w.newToken.2 := .newToken
  have hissued : w.newToken.2.Issued (.group w.newToken.1) := by simp [World.Issued, World.newToken]
  rcases hr : w.newToken.2.react m.token (.forward w.newToken.1) with ⟨link, w'⟩
  obtain ⟨hreact, hsome, hnone⟩ := World.react_stake (x := .group w.newToken.1) (hnew.keysSound hw) hissued hr
  have hnote : w'.Acts (w'.record (.joining (children.map fun n =>
      Branch.running (.start n m.env w.newToken.1 m.interval)).length)) := .record _ _
  have hlinked : Group.Linked { token := w.newToken.1, link } w' m.token :=
    { issued := hreact.issued hissued
      link := fun s hs => ⟨(hsome s hs).1, (hsome s hs).2.1⟩
      tripped := by
        cases link with
        | none => exact .inr (hnone rfl)
        | some s => exact .inl ⟨s, rfl, (hsome s rfl).2.2⟩ }
  have heq : m.fanOut children w =
      { process := .joining m { token := w.newToken.1, link } []
          (children.map fun n => .running (.start n m.env w.newToken.1 m.interval))
        world := w'.record (.joining (children.map fun n =>
          Branch.running (.start n m.env w.newToken.1 m.interval)).length) } := by
    simp only [fanOut, hr]
  rw [heq]
  refine ⟨(hnew.trans hreact fun _ _ h => h).trans hnote.toFaithful fun _ _ h => h, rfl, _, _, rfl,
    hlinked.onward hnote.toFaithful id, fun h => Nat.lt_irrefl _ h, fun b hb => ?_⟩
  obtain ⟨n, -, rfl⟩ := List.mem_map.mp hb
  exact ⟨n, m.env, m.interval, rfl⟩

/-- A future that cannot be made leaves the interpreter free; one that can is watched from the start. -/
theorem await_cases (factory : OperationId → Action Future) (onReject : Value → Action (Cause Value)) {w : World}
    (hw : w.KeysSound) :
    (m.await factory onReject w).Free Stake.None w m.token ∨ Awaits w m (m.await factory onReject w) := by
  have hnew : World.Faithful Stake.None w w.newOperation.2 := .newOperation
  have hissued : w.newOperation.2.Issued (.operation w.newOperation.1) := by simp [World.Issued, World.newOperation]
  have hfresh : ¬ w.Issued (.operation w.newOperation.1) := fun h => Nat.lt_irrefl _ h
  rcases hr : w.newOperation.2.react m.token (.stop w.newOperation.1) with ⟨_ | stopper, w'⟩
  · obtain ⟨hreact, -, -⟩ := World.react_stake (x := .operation w.newOperation.1) (hnew.keysSound hw) hissued hr
    simp only [await, hr]
    refine .inl (m.interrupted_free ?_)
    exact (hnew.trans hreact fun _ _ h => h).trans (World.Acts.record _ _).toFaithful fun _ _ h => h
  · obtain ⟨hreact, hsome, -⟩ := World.react_stake (x := .operation w.newOperation.1) (hnew.keysSound hw) hissued hr
    obtain ⟨htoken, hholds, hlive⟩ := hsome stopper rfl
    have hbegun := hnew.trans hreact fun _ _ h => h
    have hwatched : Awaited.Watched { op := w.newOperation.1, stopper, future := .never, onReject } w' m.token :=
      ⟨htoken, hholds, .inl hlive⟩
    have hfactory := (factory w.newOperation.1).run_acts w'
    simp only [await, hr]
    split
    · rename_i future v hrun
      rw [hrun] at hfactory
      have hwatched' := hwatched.onward hfactory.toFaithful id
      exact .inr ⟨hbegun.trans hfactory.toFaithful fun _ _ h => h, rfl, _, rfl,
        ⟨hwatched'.token, hwatched'.holds, hwatched'.stopped⟩, hfresh⟩
    · rename_i p v hrun
      rw [hrun] at hfactory
      have hgone := World.Faithful.unsubscribe (X := (· = .operation w.newOperation.1)) (hholds.onward hfactory.toOnward) rfl
      refine .inl ⟨.next _ rfl, ?_, rfl⟩
      refine (hbegun.trans hfactory.toFaithful fun _ _ h => h).trans hgone fun x hx he => ?_
      exact absurd (he ▸ hx) hfresh

/-- What code does before a group starts changes nothing in how it starts. -/
theorem FannedOut.after {w v : World} {r : Turn} (h : FannedOut v m r) (ha : w.Acts v) : FannedOut w m r where
  faithful := ha.toFaithful.trans h.faithful fun _ _ h => h
  pace := h.pace
  group := by
    obtain ⟨g, branches, hr, hg, hn, hb⟩ := h.group
    exact ⟨g, branches, hr, hg, fun hi => hn (ha.issued hi), hb⟩

/-- What code does before a future is awaited changes nothing in how it is awaited. -/
theorem Awaits.after {w v : World} {r : Turn} (h : Awaits v m r) (ha : w.Acts v) : Awaits w m r where
  faithful := ha.toFaithful.trans h.faithful fun _ _ h => h
  pace := h.pace
  future := by
    obtain ⟨a, hr, hwatched, hn⟩ := h.future
    exact ⟨a, hr, hwatched, fun hi => hn (ha.issued hi)⟩

/-- What comes of taking a node: the interpreter goes on by itself, joins a group, or awaits a host future. -/
theorem take_cases (n : Node) {w : World} (hw : w.KeysSound) :
    (m.take n w).Free Stake.None w m.token ∨ FannedOut w m (m.take n w) ∨ Awaits w m (m.take n w) := by
  have hnote : w.Acts (w.record (.step n.kind m.frames.height)) := .record _ _
  have hkeys := hnote.keysSound hw
  have quiet : ∀ {p : Process}, p.Free m.token →
      Turn.Free Stake.None w m.token { process := p, world := w.record (.step n.kind m.frames.height) } :=
    fun hp => ⟨hp, hnote.toFaithful, rfl⟩
  have lazily : ∀ (thunk : Action (Except (Cause Value) Payload)) {x : Except (Cause Value) Payload} {v : World},
      evaluate thunk (w.record (.step n.kind m.frames.height)) = (x, v) → World.Faithful Stake.None w v := by
    intro thunk x v h
    have := (hnote.trans (evaluate_acts thunk _)).toFaithful
    rwa [h] at this
  unfold take
  dsimp only
  split
  · exact .inl (m.goOn_free _ hnote.toFaithful)
  · split <;> rename_i heq
    · exact .inl (m.goOn_free _ (lazily _ heq))
    · exact .inl ⟨.next _ rfl, lazily _ heq, rfl⟩
  · exact .inl (quiet (.next _ rfl))
  · exact .inl (quiet (.next _ rfl))
  · exact .inl (m.goOn_free _ hnote.toFaithful)
  · exact .inl (quiet (.popping _ rfl))
  · split <;> rename_i heq <;> exact .inl ⟨.next _ rfl, lazily _ heq, rfl⟩
  · exact .inl (quiet (.popping _ rfl))
  · refine .inl (m.interrupted_free ?_)
    exact ((hnote.trans (.record _ _)).trans (World.interrupt_acts _ _)).toFaithful
  · exact .inl (m.goOn_free _ hnote.toFaithful)
  · exact .inl (quiet (.next _ rfl))
  · exact .inr (.inl ((m.fanOut_cases _ hkeys).after m hnote))
  · rcases m.await_cases _ _ hkeys with h | h
    · exact .inl ⟨h.process, hnote.toFaithful.trans h.faithful fun _ _ h => h, h.pace⟩
    · exact .inr (.inr (h.after m hnote))
  · exact .inl (quiet (.next _ rfl))

/-- What comes of popping a frame: the interpreter goes on by itself, or starts a finalizer. -/
theorem pop_cases (o : Outcome) (w : World) :
    (m.pop o w).Free Stake.None w m.token ∨
      ∃ m' n env t k, (m.pop o w) = { process := .finalizing m' o (.start n env t k), world := w.newToken.2 } ∧
        m'.token = m.token := by
  unfold pop
  split
  · exact .inl ⟨.settled _, .refl _ _, rfl⟩
  · dsimp only
    split
    · exact .inr ⟨_, _, _, _, _, rfl, rfl⟩
    · exact .inl ⟨.popping _ rfl, .refl _ _, rfl⟩
    · exact .inl ⟨.next _ rfl, (guarded_acts _ w).toFaithful, rfl⟩
    · exact .inl ⟨.next _ rfl, (guarded_acts _ w).toFaithful, rfl⟩
    · exact .inl ⟨.next _ rfl, (guarded_acts _ w).toFaithful, rfl⟩
    · exact .inl ⟨.popping _ rfl, .refl _ _, rfl⟩
    · exact .inl ⟨.popping _ rfl, .refl _ _, rfl⟩

/-- An interpreter whose finalizer has settled waits for nothing. -/
theorem finalized_free (o : Outcome) (e : Exit Value Payload) (w : World) :
    (m.finalized o e w).Free X w m.token := by
  have hnote : World.Faithful X w (w.record .finalizerFailed) := (World.Acts.record w _).faithful
  cases e with
  | success p => exact ⟨.popping _ rfl, .refl _ _, rfl⟩
  | failure c =>
    cases o with
    | value p => exact ⟨.next _ rfl, hnote, rfl⟩
    | failure c' => exact ⟨.popping _ rfl, hnote, rfl⟩
    | interruption => exact ⟨.popping _ rfl, hnote, rfl⟩

/-- What comes of looking at a host future: the interpreter goes on by itself and gives the future up, or it goes on
waiting. -/
theorem pollAwaited_cases {a : Awaited} {w : World} (ha : a.Watched w m.token) :
    (m.pollAwaited a w).Free (· = .operation a.op) w m.token ∨
      w.isFired a.op = false ∧
        ∃ rest, m.pollAwaited a w =
          { process := .awaiting m { a with future := rest }, world := (a.future.poll a.op (w.attend a.op)).2, pace := .waiting } := by
  have given_up : ∀ {v : World}, World.Faithful (· = .operation a.op) w v →
      World.Faithful (· = .operation a.op) w ((v.unsubscribe a.stopper).forget a.op) := fun h =>
    (h.trans (World.Faithful.unsubscribe (X := (· = .operation a.op)) (ha.holds.onward h.toOnward) rfl)
      fun _ _ h => h).trans
      (World.Acts.forget _ _).toFaithful fun _ _ h => h.elim
  have hpoll : World.Faithful (· = .operation a.op) w (a.future.poll a.op (w.attend a.op)).2 :=
    (World.Faithful.attend (X := (· = .operation a.op)) rfl).trans (a.future.poll_acts _ _).toFaithful fun _ _ h => h.elim
  unfold pollAwaited
  split
  · exact .inl (m.interrupted_free (given_up (.refl _ _)))
  · rename_i hf
    rcases hp : a.future.poll a.op (w.attend a.op) with ⟨rest | ⟨x | p⟩ | p, v⟩ <;> rw [hp] at hpoll
    · exact .inr ⟨Bool.eq_false_iff.mpr hf, rest, rfl⟩
    · exact .inl (m.goOn_free _ (given_up hpoll))
    · exact .inl ⟨.next _ rfl, given_up hpoll, rfl⟩
    · exact .inl ⟨.next _ rfl, given_up hpoll, rfl⟩

/-- What comes of the end of a group: the interpreter gives the link up and goes on by itself. -/
theorem joined_free {g : Group} (exits : List (Exit Value Payload)) {w : World} (hg : g.Linked w m.token) :
    (m.joined g exits w).Free (· = .group g.token) w m.token := by
  have hgone : World.Faithful (· = .group g.token) w (g.unlink w) := by
    unfold Group.unlink
    split
    · rename_i s hs
      exact .unsubscribe (hg.link s hs).2 rfl
    · exact .refl _ _
  rw [joined_eq]
  split
  · exact m.interrupted_free hgone
  · split
    · exact ⟨.next _ rfl, hgone, rfl⟩
    · exact ⟨.next _ rfl, hgone, rfl⟩
    · exact m.interrupted_free (hgone.trans (World.interrupt_acts _ _).toFaithful fun _ _ h => h.elim)

end Interpreter

/-- What is done at the end of a round acts on the world as code does. -/
theorem Group.afterRound_acts (g : Group) (branches : List Branch) (w : World) : w.Acts (g.afterRound branches w) := by
  unfold afterRound
  split
  · exact (World.Acts.record w _).trans (World.interrupt_acts _ _)
  · exact .refl w

/-! ## One turn -/

/-- An interpreter with all those inside it: its stakes are its own, and they are registered or have been answered. -/
structure Process.Holding (w : World) (t : TokenId) (p : Process) : Prop where
  held : p.Held w t
  issued : ∀ x ∈ p.stakes, w.Issued x
  nodup : p.stakes.Nodup

/-- What a turn of a process leaves. -/
structure Turn.Holds (w : World) (t : TokenId) (p : Process) (r : Turn) : Prop where
  /-- Nothing that others have at stake is lost. -/
  faithful : World.Faithful (· ∈ p.stakes) w r.world
  renews : w.Renews r.world p.stakes r.process.stakes
  held : r.process.Held r.world t

namespace Process

variable {w : World} {t : TokenId}

/-- A process that has not begun holds what it has: nothing. -/
theorem Holding.start (n : Node) (env : Environment) (t : TokenId) (k : Nat) : (Process.start n env t k).Holding w t :=
  ⟨.free (.next n rfl), fun _ h => (nomatch h), List.nodup_nil⟩

/-- A process that has held its stakes holds those that a turn leaves it. -/
theorem Holding.after {p : Process} (h : p.Holding w t) {r : Turn} (hr : r.Holds w t p) : r.process.Holding r.world t where
  held := hr.held
  issued x hx := by
    rcases hr.renews.mem hx with hx | ⟨-, hi⟩
    · exact hr.faithful.issued (h.issued x hx)
    · exact hi
  nodup := hr.renews.nodup h.issued h.nodup

/-- A finalizer holds its own stakes in that of its interpreter. -/
theorem Holding.child {m : Interpreter} {o : Outcome} {child : Process} (h : (finalizing m o child).Holding w t) :
    ∃ t', child.Holding w t' := by
  obtain ⟨t', hc⟩ := h.held.of_finalizing
  exact ⟨t', hc, h.issued, h.nodup⟩

/-- A branch of a group. -/
theorem Holding.branch {m : Interpreter} {g : Group} {seen rest : List Branch} (h : (joining m g seen rest).Holding w t)
    {q : Process} (hq : .running q ∈ seen ++ rest) : q.Holding w g.token := by
  have hsub : ∀ x ∈ q.stakes, x ∈ (joining m g seen rest).stakes := by
    intro x hx
    refine List.mem_cons_of_mem _ ?_
    rw [← Branch.stakes_append]
    exact Branch.stakes_subset hq hx
  refine ⟨h.held.of_joining.2 q hq, fun x hx => h.issued x (hsub x hx), ?_⟩
  obtain ⟨front, back, hsplit⟩ := List.append_of_mem hq
  have hnodup := (List.nodup_cons.mp h.nodup).2
  rw [← Branch.stakes_append, hsplit, Branch.stakes_append, Branch.stakes] at hnodup
  exact (List.nodup_append.mp (List.nodup_append.mp hnodup).2.1).1

/-- The branch whose turn it is has nothing at stake that the group or another branch has at stake. -/
theorem Holding.apart {m : Interpreter} {g : Group} {seen rest : List Branch} {q : Process}
    (h : (joining m g seen (.running q :: rest)).Holding w t) :
    .group g.token ∉ q.stakes ∧ ∀ r, .running r ∈ seen ++ rest → ∀ x ∈ r.stakes, x ∉ q.stakes := by
  obtain ⟨hgroup, hnodup⟩ := List.nodup_cons.mp h.nodup
  obtain ⟨-, hlater, hseen⟩ := List.nodup_append.mp hnodup
  obtain ⟨-, -, hrest⟩ := List.nodup_append.mp hlater
  refine ⟨fun hx => hgroup (List.mem_append_right _ (List.mem_append_left _ hx)), fun r hr x hx hq => ?_⟩
  rcases List.mem_append.mp hr with hr | hr
  · exact hseen x (Branch.stakes_subset hr hx) x (List.mem_append_left _ hq) rfl
  · exact hrest x hq x (Branch.stakes_subset hr hx) rfl

/-- A turn that lets an interpreter go on by itself. -/
theorem holds_of_free {p : Process} {X : Stake → Prop} {r : Turn} (hp : r.process.Free t) (hf : World.Faithful X w r.world)
    (hX : ∀ x, X x → x ∈ p.stakes) : r.Holds w t p where
  faithful := hf.mono fun x _ => hX x
  renews := by
    rw [hp.stakes]
    exact .of_nil
  held := .free hp

/-- Taking a node leaves the stakes of an interpreter in order. -/
theorem take_holds (m : Interpreter) (n : Node) (hw : w.KeysSound) : (m.take n w).Holds w m.token (.counted m n) := by
  rcases m.take_cases n hw with h | ⟨hf, -, g, branches, hp, hg, hn, hb⟩ | ⟨hf, -, a, hp, ha, hn⟩
  · exact holds_of_free h.process h.faithful fun _ h => h.elim
  · have hstart : ∀ q, .running q ∈ branches → ∃ n env k, q = .start n env g.token k := by
      intro q hq
      obtain ⟨n, env, k, hq'⟩ := hb _ hq
      exact ⟨n, env, k, Branch.running.inj hq'⟩
    have hstakes : Branch.stakes branches = [] := Branch.stakes_eq_nil fun q hq => by
      obtain ⟨n, env, k, rfl⟩ := hstart q hq
      rfl
    refine ⟨hf.mono fun _ _ h => h.elim, ?_, ?_⟩
    · rw [hp]
      simp only [stakes, Branch.stakes, hstakes, List.append_nil]
      exact .of_new hn hg.issued
    · rw [hp]
      refine .joining rfl hg fun q hq => ?_
      obtain ⟨n, env, k, rfl⟩ := hstart q hq
      exact .free (.next n rfl)
  · refine ⟨hf.mono fun _ _ h => h.elim, ?_, ?_⟩
    · rw [hp]
      exact .of_new hn ha.holds.issued
    · rw [hp]
      exact .awaiting rfl ha

/-- Popping a frame leaves the stakes of an interpreter in order. -/
theorem pop_holds (m : Interpreter) (o : Outcome) (w : World) : (m.pop o w).Holds w m.token (.popping m o) := by
  rcases m.pop_cases o w with h | ⟨m', n, env, t, k, heq, htoken⟩
  · exact holds_of_free h.process h.faithful fun _ h => h.elim
  · rw [heq, ← htoken]
    exact ⟨.newToken, .of_nil, .finalizing o rfl (.free (.next n rfl))⟩

/-- Polling an awaited future leaves the stakes of an interpreter in order. -/
theorem pollAwaited_holds {m : Interpreter} {a : Awaited} (ha : a.Watched w m.token) :
    (m.pollAwaited a w).Holds w m.token (.awaiting m a) := by
  rcases m.pollAwaited_cases ha with h | ⟨hquiet, rest, heq⟩
  · exact holds_of_free h.process h.faithful fun x hx => List.mem_singleton.mpr hx
  · have hattend : World.Faithful (· = .operation a.op) w (w.attend a.op) := .attend rfl
    have hpoll := a.future.poll_acts a.op (w.attend a.op)
    have hlive : w.Live a.stopper (.operation a.op) := ha.stopped.resolve_right fun h => by rw [hquiet] at h; nomatch h.2
    have hwatched : a.Watched (w.attend a.op) m.token := ⟨ha.token, ha.holds.onward hattend.toOnward, .inl hlive⟩
    have hwatched' := hwatched.onward hpoll.toFaithful id
    rw [heq]
    exact
      { faithful := (hattend.trans hpoll.toFaithful fun _ _ h => h.elim).mono fun x _ hx => List.mem_singleton.mpr hx
        renews := .of_perm (.refl _)
        held := .awaiting rfl ⟨hwatched'.token, hwatched'.holds, hwatched'.stopped⟩ }

/-- The end of a round leaves the stakes of a group in order, also when it is settled by this. -/
theorem endRound_holds {m : Interpreter} {g : Group} {seen : List Branch} (h : (joining m g seen []).Holding w m.token) :
    (m.endRound g seen.reverse w).Holds w m.token (.joining m g seen []) := by
  have hround := g.afterRound_acts seen.reverse w
  obtain ⟨hg, hb⟩ := h.held.of_joining
  have hg' := hg.onward hround.toFaithful id
  rw [Interpreter.endRound_eq]
  split
  · have hfree := m.joined_free (seen.reverse.filterMap Branch.exit?) hg'
    refine holds_of_free hfree.process (hround.faithful.trans hfree.faithful fun _ _ h => h) ?_
    rintro x rfl
    exact List.mem_cons_self
  · exact
      { faithful := hround.faithful
        renews := .of_perm (by simpa [stakes, Branch.stakes] using Branch.stakes_reverse seen)
        held := .joining rfl ⟨hg'.issued, hg'.link, hg'.tripped⟩ fun q hq =>
          (hb q (by simpa using hq)).onward hround.toFaithful fun _ _ => id }

/-- A turn of a branch. -/
theorem joining_holds {m : Interpreter} {g : Group} {seen rest : List Branch} {q : Process}
    (h : (joining m g seen (.running q :: rest)).Holding w t) (hq : (q.turn w).Holds w g.token q) :
    (turn (.joining m g seen (.running q :: rest)) w).Holds w t (.joining m g seen (.running q :: rest)) := by
  obtain ⟨hgroup, hothers⟩ := h.apart
  have hfaithful : World.Faithful (· ∈ (joining m g seen (.running q :: rest)).stakes) w (q.turn w).world :=
    hq.faithful.mono fun x _ hx => List.mem_cons_of_mem _ (List.mem_append_right _ (List.mem_append_left _ hx))
  have hrenews := hq.renews.among (.group g.token :: Branch.stakes seen) (Branch.stakes rest)
  obtain ⟨hg, hb⟩ := h.held.of_joining
  have ht := h.held.token_eq rfl
  have hg' := hg.onward hq.faithful hgroup
  have hb' : ∀ r, .running r ∈ seen ++ rest → r.Held (q.turn w).world g.token := fun r hr =>
    (hb r (by
      rcases List.mem_append.mp hr with hr | hr
      · exact List.mem_append_left _ hr
      · exact List.mem_append_right _ (List.mem_cons_of_mem _ hr))).onward hq.faithful (hothers r hr)
  have hown := hq.held
  simp only [turn]
  split
  · rename_i e _ he
    rw [he] at hrenews
    exact
      { faithful := hfaithful
        renews := hrenews
        held := .joining ht ⟨hg'.issued, hg'.link, hg'.tripped⟩ fun r hr => hb' r (by simpa using hr) }
  · exact
      { faithful := hfaithful
        renews := hrenews
        held := .joining ht hg' fun r hr => by
          rcases List.mem_append.mp hr with hr | hr
          · exact hb' r (List.mem_append_left _ hr)
          · rcases List.mem_cons.mp hr with hr | hr
            · rw [Branch.running.inj hr]
              exact hown
            · exact hb' r (List.mem_append_right _ hr) }
  · exact
      { faithful := hfaithful
        renews := hrenews.perm (by
          simp only [stakes, Branch.stakes, List.cons_append, List.append_assoc]
          exact (List.perm_append_comm_assoc _ _ _).cons _)
        held := .joining ht hg' fun r hr => by
          rcases List.mem_cons.mp hr with hr | hr
          · rw [Branch.running.inj hr]
            exact hown
          · exact hb' r hr }

/-- A turn of a process leaves everything held, its own stakes and those of others. -/
theorem turn_holds {p : Process} (hw : w.KeysSound) (h : p.Holding w t) : (p.turn w).Holds w t p := by
  induction p, w using Process.turn.induct generalizing t with
  | case1 m n w m' =>
    rename_i hy
    have ht : m.token = t := h.held.token_eq rfl
    rw [Process.turn, if_pos hy]
    refine holds_of_free (X := Stake.None) (.counted n ht) ?_ fun _ h => h.elim
    exact ((World.Acts.record w _).trans (.wakeCurrent _)).toFaithful
  | case2 m n w m' =>
    rename_i hy
    have ht : m.token = t := h.held.token_eq rfl
    rw [Process.turn, if_neg hy]
    exact holds_of_free (X := Stake.None) (.counted n ht) (.refl _ w) fun _ h => h.elim
  | case3 m n w hi =>
    obtain rfl := h.held.token_eq rfl
    rw [Process.turn, if_pos hi]
    exact holds_of_free (m.interrupted_free (.refl Stake.None w)).process (World.Acts.record w _).toFaithful
      fun _ h => h.elim
  | case4 m n w hi =>
    obtain rfl := h.held.token_eq rfl
    rw [Process.turn, if_neg hi]
    exact take_holds m n hw
  | case5 m o w =>
    obtain rfl := h.held.token_eq rfl
    exact pop_holds m o w
  | case6 m o e w =>
    obtain rfl := h.held.token_eq rfl
    have hfree := m.finalized_free (X := Stake.None) o e w
    exact holds_of_free hfree.process hfree.faithful fun _ h => h.elim
  | case7 m o child w hc ih =>
    obtain ⟨s, hchild⟩ := h.child
    have hr := ih hw hchild
    rw [Process.turn]
    · exact ⟨hr.faithful, hr.renews, .finalizing o (h.held.token_eq rfl) hr.held⟩
    · exact hc
  | case8 m a w =>
    obtain rfl := h.held.token_eq rfl
    exact pollAwaited_holds h.held.of_awaiting
  | case9 m g seen w =>
    obtain rfl := h.held.token_eq rfl
    exact endRound_holds h
  | case10 m g seen e rest w =>
    obtain ⟨hg, hb⟩ := h.held.of_joining
    exact
      { faithful := .refl _ w
        renews := .of_perm (.refl _)
        held := .joining (h.held.token_eq rfl) hg fun q hq => hb q (by simpa [or_left_comm] using hq) }
  | case11 m g seen p rest w r e he =>
    rename_i ih
    exact joining_holds h (ih hw (h.branch (by simp)))
  | case12 m g seen p rest w r hpace hns =>
    rename_i ih
    exact joining_holds h (ih hw (h.branch (by simp)))
  | case13 m g seen p rest w r hpace hns =>
    rename_i ih
    exact joining_holds h (ih hw (h.branch (by simp)))
  | case14 e w => exact holds_of_free (X := Stake.None) (.settled e) (.refl _ w) fun _ h => h.elim

end Process

end Interruptible
