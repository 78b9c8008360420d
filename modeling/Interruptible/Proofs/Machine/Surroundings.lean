import Interruptible.Proofs.Machine.Holdings
import Interruptible.Proofs.World.Hooks

/-!
# The surroundings of a host operation

While an interpreter awaits a host future, everybody else is at work: callbacks run, other futures are polled, other
interpreters start groups and operations and give them up, tasks are scheduled and the clock moves. `World.Meanwhile op` allows
all of this, in any order, and says what happens by it; what it rules out is that somebody else gives up the subscription by
which the operation `op` is to be stopped. Every turn of every interpreter that does not itself await the operation is of this
kind (`Process.turn_elsewhere`).
-/

namespace Interruptible

/-- What everybody but the interpreter that awaits an operation can do to the world, and what happens by it. -/
inductive World.Meanwhile (op : OperationId) : World → List HostEvent → World → Prop where
  | acted {α : Type} (a : Action α) (w : World) : Meanwhile op w (a.events w) (a.run w).2
  | polled (f : Future) (o : OperationId) (w : World) : Meanwhile op w (f.events o w) (f.poll o w).2
  /-- Tasks are scheduled, the clock moves, and notes are taken. -/
  | steady {w w' : World} (h : w.Steady w') : Meanwhile op w [] w'
  | attended (o : OperationId) (w : World) : Meanwhile op w [] (w.attend o)
  | token (w : World) : Meanwhile op w [] w.newToken.2
  | operation (w : World) : Meanwhile op w [] w.newOperation.2
  /-- A group starts, under a token. -/
  | grouped (t : TokenId) (w : World) :
    Meanwhile op w (w.newToken.2.reactEvents t (.forward w.newToken.1)) (w.newToken.2.react t (.forward w.newToken.1)).2
  /-- Another operation starts, under a token. -/
  | awaited (t : TokenId) (w : World) :
    Meanwhile op w (w.newOperation.2.reactEvents t (.stop w.newOperation.1))
      (w.newOperation.2.react t (.stop w.newOperation.1)).2
  /-- Somebody gives a subscription up, not the one by which the operation is to be stopped. -/
  | unsubscribed {s : Subscription} {w : World} (hs : ¬ w.Registered s (.operation op)) : Meanwhile op w [] (w.unsubscribe s)
  | trans {w₁ w₂ w₃ : World} {es es' : List HostEvent} (h : Meanwhile op w₁ es w₂) (h' : Meanwhile op w₂ es' w₃) :
    Meanwhile op w₁ (es ++ es') w₃

/-! ## What the surroundings leave alone -/

namespace World

variable {op : OperationId} {w w' : World} {es : List HostEvent}

/-- A new token changes nothing for an operation. -/
theorem Accounts.newToken (w : World) : Accounts op w [] w.newToken.2 where
  operations := Nat.le_refl _
  tripped t := by simp [isInterrupted_newToken]
  registered s hr := by
    obtain ⟨x, hx, hmem⟩ := hr
    simp only [World.newToken, Array.getElem?_push] at hx
    split at hx
    · obtain rfl := Option.some.inj hx
      cases hmem
    · exact ⟨x, hx, hmem⟩
  code _ he := absurd he List.not_mem_nil

/-- A new operation is none of those that exist. -/
theorem Accounts.newOperation (w : World) : Accounts op w [] w.newOperation.2 where
  operations := by simp [World.newOperation]
  tripped _ := by simp [isInterrupted, World.newOperation]
  registered _ hr := hr
  code _ he := nomatch he

/-- A new operation is none of those that are served. -/
theorem Serves.newOperation (hop : op < w.operations.size) : Serves op [] w [] w.newOperation.2 := by
  refine .untouched hop ?_ rfl rfl List.not_mem_nil
  simp [World.newOperation, Array.getElem?_push, Nat.ne_of_lt hop]

/-- Attending to an operation does not touch the adapter of another one. -/
theorem Serves.attend (hop : op < w.operations.size) (o : OperationId) : Serves op [] w [] (w.attend o) where
  begun := by rwa [World.attend, size_modifyOperation]
  balance := by
    rw [World.attend, waitingHooks_modifyOperation]
    split <;> simp [waitingHooks]
  stopped := by
    rw [World.attend, isFired_modifyOperation]
    split <;> simp [isFired]
  spent h := by
    rw [World.attend, waitingHooks_modifyOperation, isFired_modifyOperation]
    split
    · exact h
    · exact h
  order _ _ h := nomatch h
  prompt _ _ h := nomatch h

namespace Meanwhile

/-- A callback builds a node. -/
theorem guarded (a : Action Node) (w : World) : w.Meanwhile op (a.events w) (guarded a w).2 := by
  have ha : w.Meanwhile op (a.events w) (a.run w).2 := .acted a w
  unfold Interruptible.guarded
  split <;> rename_i h <;> rwa [h] at ha

/-- What others do meanwhile is accounted for by what happens to the operation. -/
theorem accounts (h : w.Meanwhile op es w') (hop : op < w.operations.size) : w.Accounts op es w' := by
  induction h with
  | acted a w => exact a.run_labelled (accounts_labelled op) w
  | polled f o w => exact f.poll_labelled (accounts_labelled op) o w
  | steady h => exact .steady h
  | attended o w =>
    exact ⟨Nat.le_of_eq (size_modifyOperation w o _).symm, fun t => by simp [isInterrupted, attend, modifyOperation],
      fun _ hr => hr, fun _ he => absurd he List.not_mem_nil⟩
  | token w => exact .newToken w
  | operation w => exact .newOperation w
  | grouped t w => exact (Accounts.newToken w).trans (react_labelled (accounts_labelled op) (.subscribe fun he => by cases he))
  | awaited t w =>
    refine (Accounts.newOperation w).trans (react_labelled (accounts_labelled op) (.subscribe fun he => ?_))
    exact absurd (Reaction.stop.inj he) (Nat.ne_of_gt hop)
  | unsubscribed _ => exact .modifyToken (fun _ => rfl) fun _ _ h => (List.mem_filter.mp h).1
  | trans _ _ ih ih' =>
    have hfirst := ih hop
    exact hfirst.trans (ih' (Nat.lt_of_lt_of_le hop hfirst.operations))

/-- What others do meanwhile does not poll the operation. -/
theorem serves (h : w.Meanwhile op es w') (hop : op < w.operations.size) : w.Serves op [] es w' := by
  induction h with
  | acted a w => exact a.run_labelled (serves_labelled op) w hop
  | polled f o w => exact f.poll_labelled (serves_labelled op) o w hop
  | steady h => exact .steady hop h
  | attended o w => exact .attend hop o
  | token w => exact .untouched hop rfl rfl rfl List.not_mem_nil
  | operation w => exact .newOperation hop
  | grouped t w =>
    have hnew : w.Serves op [] [] w.newToken.2 := .untouched hop rfl rfl rfl List.not_mem_nil
    exact hnew.trans (react_labelled (serves_labelled op) (fun hop => .subscribe hop t _) hnew.begun)
  | awaited t w =>
    have hnew := Serves.newOperation hop
    exact hnew.trans (react_labelled (serves_labelled op) (fun hop => .subscribe hop t _) hnew.begun)
  | unsubscribed _ => exact .untouched hop rfl rfl rfl List.not_mem_nil
  | trans _ _ ih ih' =>
    have hfirst := ih hop
    exact hfirst.trans (ih' hfirst.begun)

/-- What others do meanwhile leads to a later world. -/
theorem later (h : w.Meanwhile op es w') : w.Later w' := by
  induction h with
  | acted a w => exact a.run_later w
  | polled f o w => exact f.poll_later o w
  | steady h => exact .of_eq h.tokens h.operations
  | attended o w => exact attend_later w o
  | token w => exact newToken_later w
  | operation w => exact newOperation_later w
  | grouped t w => exact (newToken_later w).trans (react_later _ t _ fun _ => nofun)
  | awaited t w => exact react_stop_later w t
  | unsubscribed _ => exact unsubscribe_later _ _
  | trans _ _ ih ih' => exact ih.trans ih'

end Meanwhile

/-- Subscriptions stay sound, and the operation stays watched. -/
def Guards (op : OperationId) (w w' : World) : Prop :=
  w.KeysSound → w'.KeysSound ∧ ∀ (a : Awaited) (t : TokenId), a.op = op → a.Watched w t → a.Watched w' t

namespace Guards

/-- What leaves the stake of an operation alone keeps the operation watched. -/
theorem of_faithful {X : Stake → Prop} (h : Faithful X w w') (hx : ¬ X (.operation op)) : Guards op w w' :=
  fun hw => ⟨h.keysSound hw, fun _ _ ha hwatched => hwatched.onward h (ha ▸ hx)⟩

/-- The tokens are the same, and the operation has not been stopped meanwhile. -/
theorem of_tokens (ht : w'.tokens = w.tokens) (ho : w'.operations.size = w.operations.size)
    (hf : w'.isFired op = w.isFired op) : Guards op w w' := by
  refine fun hw => ⟨by simpa only [KeysSound, Registered, Allotted, ht] using hw, fun a t ha hwatched => ?_⟩
  subst ha
  exact
    { token := hwatched.token
      holds :=
        { issued := by simpa only [Issued, ho] using hwatched.holds.issued
          allotted := by simpa only [Allotted, ht] using hwatched.holds.allotted
          sole := by simpa only [Registered, ht] using hwatched.holds.sole }
      stopped := by simpa only [Live, Registered, isInterrupted, ht, hf] using hwatched.stopped }

theorem trans {w₁ w₂ w₃ : World} (h : Guards op w₁ w₂) (h' : Guards op w₂ w₃) : Guards op w₁ w₃ := fun hw => by
  obtain ⟨hkeys, hwatched⟩ := h hw
  obtain ⟨hkeys', hwatched'⟩ := h' hkeys
  exact ⟨hkeys', fun a t ha hh => hwatched' a t ha (hwatched a t ha hh)⟩

/-- Something is registered for a stake that has just been made. -/
theorem react {x : Stake} (hx : w.Issued x) (t : TokenId) : Guards op w (w.react t x.reaction).2 := fun hw =>
  of_faithful (X := Stake.None) (react_stake hw hx rfl).1 id hw

end Guards

/-- What others do meanwhile keeps the operation watched. -/
theorem Meanwhile.guards (h : w.Meanwhile op es w') : Guards op w w' := by
  induction h with
  | acted a w => exact .of_faithful (a.run_acts w).toFaithful id
  | polled f o w => exact .of_faithful (f.poll_acts o w).toFaithful id
  | steady h =>
    refine .of_tokens h.tokens (by rw [h.operations]) ?_
    simp only [isFired, h.operations]
  | attended o w =>
    refine .of_tokens rfl (size_modifyOperation w o _) ?_
    rw [attend, isFired_modifyOperation]
    split <;> simp [isFired]
  | token w => exact .of_faithful (X := Stake.None) .newToken id
  | operation w => exact .of_faithful (X := Stake.None) .newOperation id
  | grouped t w =>
    have hissued : w.newToken.2.Issued (.group w.newToken.1) := by simp [Issued, World.newToken]
    exact .trans (.of_faithful (X := Stake.None) .newToken id) (.react hissued t)
  | awaited t w =>
    have hissued : w.newOperation.2.Issued (.operation w.newOperation.1) := by simp [Issued, World.newOperation]
    exact .trans (.of_faithful (X := Stake.None) .newOperation id) (.react hissued t)
  | @unsubscribed s w hs =>
    have hkept : Faithful (· ≠ .operation op) w (w.unsubscribe s) := by
      refine .modifyToken (fun _ => rfl) (fun _ => Nat.le_refl _) (fun _ _ _ h => .inl (List.mem_filter.mp h).1)
        fun token key y ht hy h => List.mem_filter.mpr ⟨h, ?_⟩
      obtain rfl := Classical.not_not.mp hy
      rw [bne_iff_ne]
      rintro rfl
      exact hs ⟨token, ht, h⟩
    exact .of_faithful hkept fun h => h rfl
  | trans _ _ ih ih' => exact ih.trans ih'

end World

/-! ## Turns of other interpreters -/

/-- What somebody else has made of the world while an operation is awaited. -/
def World.Elsewhere (op : OperationId) (w w' : World) : Prop := ∃ es, w.Meanwhile op es w'

namespace World.Elsewhere

variable {op : OperationId} {w w₁ w₂ w₃ : World}

theorem trans (h : Elsewhere op w₁ w₂) (h' : Elsewhere op w₂ w₃) : Elsewhere op w₁ w₃ := by
  obtain ⟨_, h⟩ := h
  obtain ⟨_, h'⟩ := h'
  exact ⟨_, h.trans h'⟩

theorem refl (w : World) : Elsewhere op w w := ⟨_, .steady (.refl w)⟩

/-- A record is made elsewhere. -/
theorem record (w : World) (r : Record) : Elsewhere op w (w.record r) := ⟨_, .steady (.record w r)⟩

/-- Code that acts elsewhere reaches the operation only through its token and its hooks. -/
theorem act {α : Type} (a : Action α) (w : World) : Elsewhere op w (a.run w).2 := ⟨_, .acted a w⟩

/-- A token that is tripped elsewhere is tripped as by code. -/
theorem interrupt (t : TokenId) (w : World) : Elsewhere op w (w.interrupt t) := act (Action.perform (.interrupt t)) w

/-- A subscription of somebody else is dropped elsewhere. -/
theorem unsubscribe {s : Subscription} {x : Stake} (hs : w.Holds s x) (hx : x ≠ .operation op) :
    Elsewhere op w (w.unsubscribe s) := ⟨_, .unsubscribed fun h => hx (hs.sole _ h).symm⟩

/-- Code is called back elsewhere. -/
theorem guarded (a : Action Node) (w : World) : Elsewhere op w (guarded a w).2 := ⟨_, .guarded a w⟩

/-- A thunk is evaluated elsewhere. -/
theorem evaluate (thunk : Action (Except (Cause Value) Payload)) (w : World) : Elsewhere op w (evaluate thunk w).2 := by
  have ha : Elsewhere op w (thunk.run w).2 := act thunk w
  unfold Interruptible.evaluate
  split <;> rename_i h <;> rwa [h] at ha

/-- A subscription is given up, and the operation that it was for is forgotten. -/
theorem give_up {s : Subscription} {o : OperationId} (hs : w.Holds s (.operation o)) (ho : o ≠ op) :
    Elsewhere op w ((w.unsubscribe s).forget o) :=
  (unsubscribe hs fun h => ho (Stake.operation.inj h)).trans ⟨_, .steady ⟨rfl, rfl⟩⟩

end World.Elsewhere

namespace Interpreter

variable (m : Interpreter) {op : OperationId} {w : World}

/-- Another interpreter that finds itself interrupted does this elsewhere. -/
theorem interrupted_elsewhere (w : World) : w.Elsewhere op (m.interrupted w).world := .record w _

/-- Another interpreter that goes on with what code gives it does this elsewhere. -/
theorem goOn_elsewhere (a : Action Node) (w : World) : w.Elsewhere op (m.goOn a w).world := .guarded a w

/-- Another interpreter starts a group elsewhere. -/
theorem fanOut_elsewhere (children : List Node) (w : World) : w.Elsewhere op (m.fanOut children w).world :=
  World.Elsewhere.trans ⟨_, .grouped m.token w⟩ (.record _ _)

/-- An interpreter starts an operation of its own. -/
theorem await_elsewhere (factory : OperationId → Action Future) (onReject : Value → Action (Cause Value))
    (hw : w.KeysSound) (hop : op < w.operations.size) : w.Elsewhere op (m.await factory onReject w).world := by
  have hstarted : w.Elsewhere op (w.newOperation.2.react m.token (.stop w.newOperation.1)).2 := ⟨_, .awaited m.token w⟩
  have hnew : World.Faithful Stake.None w w.newOperation.2 := .newOperation
  have hissued : w.newOperation.2.Issued (.operation w.newOperation.1) := by simp [World.Issued, World.newOperation]
  rcases hr : w.newOperation.2.react m.token (.stop w.newOperation.1) with ⟨_ | stopper, w'⟩ <;> rw [hr] at hstarted
  · simp only [await, hr]
    exact (hstarted.trans (.record _ _)).trans (m.interrupted_elsewhere _)
  · obtain ⟨-, hsome, -⟩ := World.react_stake (x := .operation w.newOperation.1) (hnew.keysSound hw) hissued hr
    obtain ⟨-, hholds, -⟩ := hsome stopper rfl
    have hacted : w'.Elsewhere op ((factory w.newOperation.1).run w').2 := .act _ w'
    have hfactory := (factory w.newOperation.1).run_acts w'
    rcases hf : (factory w.newOperation.1).run w' with ⟨p | future, v⟩ <;> rw [hf] at hacted hfactory
    · simp only [await, hr, hf]
      refine (hstarted.trans hacted).trans (.unsubscribe (hholds.onward hfactory.toOnward) fun h => ?_)
      exact absurd (Stake.operation.inj h) (Nat.ne_of_gt hop)
    · simp only [await, hr, hf]
      exact hstarted.trans hacted

/-- Another interpreter takes a node elsewhere: the operation that it may start is a new one. -/
theorem take_elsewhere (n : Node) (hw : w.KeysSound) (hop : op < w.operations.size) :
    w.Elsewhere op (m.take n w).world := by
  have hnote : w.Elsewhere op (w.record (.step n.kind m.frames.height)) := .record w _
  refine hnote.trans ?_
  unfold take
  split
  · exact m.goOn_elsewhere _ _
  · rename_i thunk k
    have hthunk : World.Elsewhere op _ _ := .evaluate thunk (w.record (.step (Node.chain (.succeedLazy thunk) k).kind m.frames.height))
    dsimp only
    split <;> rename_i h <;> rw [h] at hthunk
    · exact hthunk.trans (m.goOn_elsewhere _ _)
    · exact hthunk
  · exact .refl _
  · exact .refl _
  · exact m.goOn_elsewhere _ _
  · exact .refl _
  · rename_i thunk
    have hthunk : World.Elsewhere op _ _ := .evaluate thunk (w.record (.step (Node.succeedLazy thunk).kind m.frames.height))
    dsimp only
    split <;> rename_i h <;> rw [h] at hthunk <;> exact hthunk
  · exact .refl _
  · exact ((World.Elsewhere.record _ _).trans (.interrupt _ _)).trans (m.interrupted_elsewhere _)
  · exact m.goOn_elsewhere _ _
  · exact .refl _
  · exact m.fanOut_elsewhere _ _
  · exact m.await_elsewhere _ _ ((World.Acts.record w _).keysSound hw) hop
  · exact .refl _

/-- Another interpreter pops a frame elsewhere. -/
theorem pop_elsewhere (o : Outcome) (w : World) : w.Elsewhere op (m.pop o w).world := by
  unfold pop
  split
  · exact .refl w
  · split
    · exact ⟨_, .token w⟩
    · exact .refl w
    · exact goOn_elsewhere _ _ w
    · exact goOn_elsewhere _ _ w
    · exact goOn_elsewhere _ _ w
    · exact .refl w
    · exact .refl w

/-- Another interpreter whose finalizer has settled goes on elsewhere. -/
theorem finalized_elsewhere (o : Outcome) (e : Exit Value Payload) (w : World) :
    w.Elsewhere op (m.finalized o e w).world := by
  unfold finalized
  split
  · exact .refl w
  · simp only
    split <;> exact .record w _

/-- An interpreter looks after an operation of its own. -/
theorem pollAwaited_elsewhere {a : Awaited} (ha : a.Watched w m.token) (hop : a.op ≠ op) :
    w.Elsewhere op (m.pollAwaited a w).world := by
  have hattend : World.Faithful (· = .operation a.op) w (w.attend a.op) := .attend rfl
  have hpoll := (hattend.trans (a.future.poll_acts a.op (w.attend a.op)).toFaithful fun _ _ h => h.elim)
  have hpolled : w.Elsewhere op (a.future.poll a.op (w.attend a.op)).2 :=
    World.Elsewhere.trans ⟨_, .attended a.op w⟩ ⟨_, .polled a.future a.op _⟩
  have hholds := ha.holds.onward hpoll.toOnward
  unfold pollAwaited
  split
  · exact (World.Elsewhere.give_up ha.holds hop).trans (m.interrupted_elsewhere _)
  · rcases hp : a.future.poll a.op (w.attend a.op) with ⟨rest | ⟨x | p⟩ | p, v⟩ <;> rw [hp] at hpolled hholds
    · exact hpolled
    · exact (hpolled.trans (.give_up hholds hop)).trans (m.goOn_elsewhere _ _)
    · exact hpolled.trans (.give_up hholds hop)
    · exact hpolled.trans (.give_up hholds hop)

/-- Another interpreter joins its group elsewhere: the subscription that it drops is its own. -/
theorem joined_elsewhere {g : Group} (exits : List (Exit Value Payload)) (hg : g.Linked w m.token) :
    w.Elsewhere op (m.joined g exits w).world := by
  have hunlinked : w.Elsewhere op (g.unlink w) := by
    unfold Group.unlink
    split
    · rename_i s hs
      exact .unsubscribe (hg.link s hs).2 nofun
    · exact .refl w
  rw [joined_eq]
  split
  · exact hunlinked.trans (m.interrupted_elsewhere _)
  · split
    · exact hunlinked
    · exact hunlinked
    · exact (hunlinked.trans (.interrupt _ _)).trans (m.interrupted_elsewhere _)

/-- Another interpreter ends the round of its group elsewhere. -/
theorem endRound_elsewhere {g : Group} (branches : List Branch) (hg : g.Linked w m.token) :
    w.Elsewhere op (m.endRound g branches w).world := by
  have hround : w.Elsewhere op (g.afterRound branches w) := by
    unfold Group.afterRound
    split
    · exact (World.Elsewhere.record w _).trans (.interrupt _ _)
    · exact .refl w
  rw [endRound_eq]
  split
  · exact hround.trans (m.joined_elsewhere _ (hg.onward (g.afterRound_acts branches w).toFaithful id))
  · exact hround

end Interpreter

namespace Process

variable {op : OperationId} {w : World}

/-- The turn of a branch is the turn of the group. -/
theorem joining_elsewhere {m : Interpreter} {g : Group} {seen rest : List Branch} {q : Process}
    (h : .operation op ∉ q.stakes → w.Elsewhere op (q.turn w).world)
    (hp : .operation op ∉ (joining m g seen (.running q :: rest)).stakes) :
    w.Elsewhere op (turn (.joining m g seen (.running q :: rest)) w).world := by
  have hq := h fun hq => hp (List.mem_cons_of_mem _ (List.mem_append_right _ (List.mem_append_left _ hq)))
  simp only [turn]
  split <;> exact hq

/-- What an interpreter does that has no stake in an operation is done elsewhere, as far as the operation is concerned. -/
theorem turn_elsewhere {p : Process} {t : TokenId} (hw : w.KeysSound) (h : p.Holding w t) (hop : op < w.operations.size)
    (hp : .operation op ∉ p.stakes) : w.Elsewhere op (p.turn w).world := by
  induction p, w using Process.turn.induct generalizing t with
  | case1 m n w m' =>
    rename_i hy
    rw [Process.turn, if_pos hy]
    exact ⟨_, .steady ((World.Steady.record w _).trans (.wakeCurrent _))⟩
  | case2 m n w m' =>
    rename_i hy
    rw [Process.turn, if_neg hy]
    exact .refl w
  | case3 m n w hi =>
    rw [Process.turn, if_pos hi]
    exact m.interrupted_elsewhere w
  | case4 m n w hi =>
    rw [Process.turn, if_neg hi]
    exact m.take_elsewhere n hw hop
  | case5 m o w => exact m.pop_elsewhere o w
  | case6 m o e w => exact m.finalized_elsewhere o e w
  | case7 m o child w hc ih =>
    obtain ⟨s, hchild⟩ := h.child
    rw [Process.turn]
    · exact ih hw hchild hop hp
    · exact hc
  | case8 m a w =>
    obtain rfl := h.held.token_eq rfl
    refine m.pollAwaited_elsewhere h.held.of_awaiting fun ha => hp ?_
    rw [← ha]
    exact List.mem_singleton.mpr rfl
  | case9 m g seen w =>
    obtain rfl := h.held.token_eq rfl
    exact m.endRound_elsewhere _ h.held.of_joining.1
  | case10 m g seen e rest w => exact .refl w
  | case11 m g seen p rest w r e he =>
    rename_i ih
    exact joining_elsewhere (ih hw (h.branch (by simp)) hop) hp
  | case12 m g seen p rest w r hpace hns =>
    rename_i ih
    exact joining_elsewhere (ih hw (h.branch (by simp)) hop) hp
  | case13 m g seen p rest w r hpace hns =>
    rename_i ih
    exact joining_elsewhere (ih hw (h.branch (by simp)) hop) hp
  | case14 e w => exact .refl w

end Process

end Interruptible
