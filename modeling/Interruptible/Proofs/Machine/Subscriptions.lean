import Interruptible.Proofs.Machine.FanIn
import Interruptible.Proofs.Machine.TokenEvents
import Interruptible.Proofs.World.TokenLaw

/-!
# Subscriptions of interpreters

An interpreter that awaits a host future holds the subscription that stops it, and one that joins a group holds the link by
which the group is tripped (`Process.subscriptions`). A ledger says how a number of events change what is held: what is taken in
joins, and what is dropped leaves (`Ledger`). Every turn keeps the ledger of its process, whatever comes of it: a value, a
rejection, a panic, a failure or interruption (`Process.turn_ledger`).

A token whose entries are known apart from what is registered under some subscriptions (`TokenBook.Leaves`) stays so when these
change by the ledger: what their holders do is of no account (`TokenBook.Run.leaves`).
-/

namespace Interruptible

mutual
/-- The subscriptions that an interpreter and those inside it hold. -/
def Process.subscriptions : Process → List Subscription
  | .next _ _ | .counted _ _ | .popping _ _ | .settled _ => []
  | .finalizing _ _ child => child.subscriptions
  | .awaiting _ a => [a.stopper]
  | .joining _ g seen rest => g.link.toList ++ (Branch.subscriptions seen ++ Branch.subscriptions rest)
/-- The subscriptions that the branches of a group hold. -/
def Branch.subscriptions : List Branch → List Subscription
  | [] => []
  | .running p :: rest => p.subscriptions ++ Branch.subscriptions rest
  | .finished _ :: rest => Branch.subscriptions rest
end

namespace Branch

/-- The subscriptions of two lists of branches are those of the one and those of the other. -/
theorem subscriptions_append (bs cs : List Branch) :
    subscriptions (bs ++ cs) = subscriptions bs ++ subscriptions cs := by
  induction bs with
  | nil => simp [subscriptions]
  | cons b bs ih => cases b <;> simp [subscriptions, ih]

/-- The subscriptions of branches do not depend on their order. -/
theorem subscriptions_reverse (bs : List Branch) : (subscriptions bs.reverse).Perm (subscriptions bs) := by
  induction bs with
  | nil => exact .refl _
  | cons b bs ih =>
    rw [List.reverse_cons, subscriptions_append]
    cases b with
    | running p =>
      simp only [subscriptions, List.append_nil]
      exact List.perm_append_comm.trans (ih.append_left _)
    | finished e => simpa [subscriptions] using ih

/-- Branches that have not begun hold no subscriptions. -/
theorem subscriptions_started (ns : List Node) (env : Environment) (t : TokenId) (k : Nat) :
    subscriptions (ns.map fun n => .running (.start n env t k)) = [] := by
  induction ns with
  | nil => rfl
  | cons n ns ih => rwa [List.map_cons, subscriptions]

/-- Branches that have finished hold no subscriptions. -/
theorem subscriptions_finished (es : List (Exit Value Payload)) : subscriptions (es.map .finished) = [] := by
  induction es with
  | nil => rfl
  | cons e es ih => rwa [List.map_cons, subscriptions]

end Branch

/-- A process that has settled holds no subscription. -/
theorem Process.subscriptions_settled {p : Process} (h : p.exit? ≠ none) : p.subscriptions = [] := by
  cases p with
  | settled e => rfl
  | _ => exact absurd rfl h

/-! ## The ledger -/

/-- What an event makes of the subscriptions that somebody holds, if the events for which `own` holds are that one's doing: what
is taken in joins them, and what is dropped leaves them. -/
inductive Ledger.Entry (own : TokenEvent → Bool) : List Subscription → TokenEvent → List Subscription → Prop where
  | other {l l' e} (he : own e = false) (hl : l.Perm l') : Entry own l e l'
  | refused {l l' t r} (hl : l.Perm l') : Entry own l (.registered t r none) l'
  | taken {l l' t r key} (he : own (.registered t r (some key)) = true) (hl : l'.Perm (⟨t, key⟩ :: l)) :
    Entry own l (.registered t r (some key)) l'
  | dropped {l l' s} (he : own (.dropped s) = true) (hl : l.Perm (s :: l')) : Entry own l (.dropped s) l'

/-- The subscriptions that somebody holds, through a number of events. Their order is of no account. -/
inductive Ledger (own : TokenEvent → Bool) : List Subscription → List TokenEvent → List Subscription → Prop where
  | nil {l l'} (hl : l.Perm l') : Ledger own l [] l'
  | cons {l l' l'' e es} (he : Ledger.Entry own l e l') (hes : Ledger own l' es l'') : Ledger own l (e :: es) l''

namespace Ledger

variable {own : TokenEvent → Bool} {l l' l'' k : List Subscription} {e : TokenEvent} {es es' : List TokenEvent}

/-- It is of no account in which order subscriptions are held before an event. -/
theorem Entry.perm_left (h : Entry own l e l') (hk : k.Perm l) : Entry own k e l' := by
  cases h with
  | other he hl => exact .other he (hk.trans hl)
  | refused hl => exact .refused (hk.trans hl)
  | taken he hl => exact .taken he (hl.trans (hk.symm.cons _))
  | dropped he hl => exact .dropped he (hk.trans hl)

/-- An event leaves alone what is held besides. -/
theorem Entry.beside (h : Entry own l e l') (k : List Subscription) : Entry own (l ++ k) e (l' ++ k) := by
  cases h with
  | other he hl => exact .other he (hl.append_right k)
  | refused hl => exact .refused (hl.append_right k)
  | taken he hl => exact .taken he (hl.append_right k)
  | dropped he hl => exact .dropped he (hl.append_right k)

/-- It is of no account in which order subscriptions are held before some events. -/
theorem perm_left (h : Ledger own l es l') (hk : k.Perm l) : Ledger own k es l' := by
  cases h with
  | nil hl => exact .nil (hk.trans hl)
  | cons he hes => exact .cons (he.perm_left hk) hes

/-- It is of no account in which order subscriptions are held after some events. -/
theorem perm_right (h : Ledger own l es l') (hk : l'.Perm k) : Ledger own l es k := by
  induction h with
  | nil hl => exact .nil (hl.trans hk)
  | cons he _ ih => exact .cons he (ih hk)

theorem trans (h : Ledger own l es l') (h' : Ledger own l' es' l'') : Ledger own l (es ++ es') l'' := by
  induction h with
  | nil hl => exact h'.perm_left hl
  | cons he _ ih => exact .cons he (ih h')

/-- A ledger that is kept through some events and others is kept through each part. -/
theorem split (h : Ledger own l (es ++ es') l'') : ∃ l', Ledger own l es l' ∧ Ledger own l' es' l'' := by
  induction es generalizing l with
  | nil => exact ⟨l, .nil (.refl l), h⟩
  | cons e es ih =>
    cases h with
    | cons he hes =>
      obtain ⟨l', hes, hes'⟩ := ih hes
      exact ⟨l', .cons he hes, hes'⟩

/-- Others hold subscriptions as well. -/
theorem beside (h : Ledger own l es l') (k : List Subscription) : Ledger own (l ++ k) es (l' ++ k) := by
  induction h with
  | nil hl => exact .nil (hl.append_right k)
  | cons he _ ih => exact .cons (he.beside k) ih

/-- What others do is of no account. -/
theorem others (h : ∀ e ∈ es, own e = false) : Ledger own l es l := by
  induction es with
  | nil => exact .nil (.refl l)
  | cons e es ih =>
    rw [List.forall_mem_cons] at h
    exact .cons (.other h.1 (.refl l)) (ih h.2)

/-- What is not own may be left out. -/
theorem owned (h : Ledger own l es l') : Ledger own l (es.filter own) l' := by
  induction h with
  | nil hl => exact .nil hl
  | @cons l l₁ l' e es he _ ih =>
    cases ho : own e with
    | true =>
      rw [List.filter_cons_of_pos ho]
      exact .cons he ih
    | false =>
      rw [List.filter_cons_of_neg (by rw [ho]; nofun)]
      cases he with
      | other _ hl => exact ih.perm_left hl
      | refused hl => exact ih.perm_left hl
      | taken he _ => exact absurd he (by rw [ho]; nofun)
      | dropped he _ => exact absurd he (by rw [ho]; nofun)

/-- A subscription is held until it is dropped. -/
theorem kept (h : Ledger own l es l') {s : Subscription} (hs : s ∈ l) : s ∈ l' ∨ .dropped s ∈ es := by
  induction h with
  | nil hl => exact .inl (hl.mem_iff.mp hs)
  | @cons l l₁ l' e es he _ ih =>
    have hentry : s ∈ l₁ ∨ e = .dropped s := by
      cases he with
      | other _ hl => exact .inl (hl.mem_iff.mp hs)
      | refused hl => exact .inl (hl.mem_iff.mp hs)
      | taken _ hl => exact .inl (hl.mem_iff.mpr (List.mem_cons_of_mem _ hs))
      | dropped _ hl =>
        rcases List.mem_cons.mp (hl.mem_iff.mp hs) with rfl | hs
        · exact .inr rfl
        · exact .inl hs
    rcases hentry with hs | rfl
    · exact (ih hs).imp_right (List.mem_cons_of_mem _)
    · exact .inr List.mem_cons_self

/-- What has been taken in is dropped, if nothing is held in the end. -/
theorem balanced (h : Ledger own l es []) {past rest : List TokenEvent} {t : TokenId} {r : Reaction} {key : Nat}
    (hes : es = past ++ .registered t r (some key) :: rest) (hr : own (.registered t r (some key)) = true) :
    .dropped ⟨t, key⟩ ∈ rest := by
  rw [hes] at h
  obtain ⟨l', -, hrest⟩ := h.split
  cases hrest with
  | cons he hrest =>
    cases he with
    | other he _ => exact absurd hr (by rw [he]; nofun)
    | taken _ hl =>
      rcases hrest.kept (hl.mem_iff.mpr List.mem_cons_self) with hs | hs
      · nomatch hs
      · exact hs

end Ledger

/-! ## Turns keep the ledger -/

/-- What code does is of no account. -/
theorem TokenEvent.AllByCode.ledger {es : List TokenEvent} (h : TokenEvent.AllByCode es) (l : List Subscription) :
    Ledger TokenEvent.byRuntime l es l := .others h

/-- The runtime registers a reaction: the subscription is held, if it is taken in. -/
theorem World.react_ledger {w : World} {t : TokenId} {r : Reaction} (hr : r.isListener = false) :
    Ledger TokenEvent.byRuntime [] (w.reactTokenEvents t r) (w.react t r).1.toList := by
  have hown (key : Option Nat) : (TokenEvent.registered t r key).byRuntime = true := by simp [TokenEvent.byRuntime, hr]
  rcases w.reactTokenEvents_cases t r with ⟨s, rfl, hs, hes⟩ | ⟨es, hs, hes, hcode⟩ <;> rw [hs, hes]
  · exact .cons (.taken (hown _) (.refl _)) (.nil (.refl _))
  · exact .cons (.refused (.refl _)) (hcode.ledger _)

namespace Interpreter

variable (m : Interpreter)

/-- Code that is called back takes in nothing for the runtime, and drops nothing of it. -/
theorem goOn_ledger (a : Action Node) (w : World) :
    Ledger TokenEvent.byRuntime [] (a.tokenEvents w) (m.goOn a w).process.subscriptions := (a.tokenEvents_byCode w).ledger []

/-- A group that starts takes in its link, if its parent has not been tripped. -/
theorem fanOut_ledger (children : List Node) (w : World) :
    Ledger TokenEvent.byRuntime [] (m.fanOutEvents w) (m.fanOut children w).process.subscriptions := by
  have hreact := World.react_ledger (w := w.newToken.2) (t := m.token) (r := .forward w.newToken.1) rfl
  refine hreact.perm_right (.of_eq ?_)
  simp only [fanOut, Process.subscriptions, Branch.subscriptions_started, Branch.subscriptions, List.append_nil]

/-- A future that starts takes in its stopper; one whose factory panics takes in nothing. -/
theorem await_ledger (factory : OperationId → Action Future) (onReject : Value → Action (Cause Value)) (w : World) :
    Ledger TokenEvent.byRuntime [] (m.startEvents factory w) (m.await factory onReject w).process.subscriptions := by
  have hreact := World.react_ledger (w := w.newOperation.2) (t := m.token) (r := .stop w.newOperation.1) rfl
  simp only [await, startEvents]
  rcases hr : w.newOperation.2.react m.token (.stop w.newOperation.1) with ⟨_ | stopper, w'⟩ <;> rw [hr] at hreact
  · exact hreact.trans (.nil (.refl _))
  · have hfactory := ((factory w.newOperation.1).tokenEvents_byCode w').ledger [stopper]
    refine hreact.trans (hfactory.trans ?_)
    dsimp only
    rcases (factory w.newOperation.1).run w' with ⟨p | future, v⟩
    · exact .cons (.dropped rfl (.refl _)) (.nil (.refl _))
    · exact .nil (.refl _)

/-- The ledger is kept when a node is taken. -/
theorem take_ledger (n : Node) (w : World) :
    Ledger TokenEvent.byRuntime [] (m.takeEvents n w) (m.take n w).process.subscriptions := by
  cases n with
  | chain inner k =>
    cases inner with
    | succeed p => exact m.goOn_ledger _ _
    | succeedLazy thunk =>
      have hthunk := (thunk.tokenEvents_byCode (w.record (.step (Node.chain (.succeedLazy thunk) k).kind m.frames.height))).ledger []
      simp only [take, takeEvents]
      refine hthunk.trans ?_
      rcases evaluate thunk _ with ⟨c | p, u⟩
      · exact .nil (.refl _)
      · exact m.goOn_ledger (k p) u
    | _ => exact .nil (.refl _)
  | defer factory => exact m.goOn_ledger _ _
  | succeedLazy thunk =>
    have hthunk := (thunk.tokenEvents_byCode (w.record (.step (Node.succeedLazy thunk).kind m.frames.height))).ledger []
    simp only [take, takeEvents]
    rcases evaluate thunk _ with ⟨c | p, u⟩ <;> exact hthunk
  | interrupt => exact (World.interruptTokenEvents_byCode m.token _).ledger []
  | asks read => exact m.goOn_ledger _ _
  | all children => exact m.fanOut_ledger children _
  | liftPromise factory onReject => exact m.await_ledger factory onReject _
  | _ => exact .nil (.refl _)

/-- The ledger is kept when a frame is popped. -/
theorem pop_ledger (o : Outcome) (w : World) :
    Ledger TokenEvent.byRuntime [] (m.popEvents o w) (m.pop o w).process.subscriptions := by
  unfold pop popEvents
  rcases m.frames.pop? with _ | ⟨frame, frames⟩
  · exact .nil (.refl _)
  · cases frame with
    | finalize n => exact .nil (.refl _)
    | restore env => exact .nil (.refl _)
    | apply k =>
      cases o with
      | value p => exact goOn_ledger _ _ w
      | _ => exact .nil (.refl _)
    | fold recover k =>
      cases o with
      | value p => exact goOn_ledger _ _ w
      | failure c => exact goOn_ledger _ _ w
      | interruption => exact .nil (.refl _)

/-- An interpreter whose finalizer has settled holds no subscriptions. -/
theorem finalized_subscriptions (o : Outcome) (e : Exit Value Payload) (w : World) :
    (m.finalized o e w).process.subscriptions = [] := by
  cases e with
  | success _ => rfl
  | failure fc => cases o <;> rfl

/-- A future that is polled keeps its stopper while it is pending, and drops it otherwise. -/
theorem pollAwaited_ledger (a : Awaited) (w : World) :
    Ledger TokenEvent.byRuntime [a.stopper] (a.tokenEvents w) (m.pollAwaited a w).process.subscriptions := by
  have given_up {es : List TokenEvent} (h : TokenEvent.AllByCode es) :
      Ledger TokenEvent.byRuntime [a.stopper] (.dropped a.stopper :: es) [] :=
    .cons (.dropped rfl (.refl _)) (h.ledger [])
  unfold pollAwaited Awaited.tokenEvents
  split
  · exact given_up .nil
  · refine ((a.future.tokenEvents_byCode _).ledger [a.stopper]).trans ?_
    rcases a.future.poll a.op (w.attend a.op) with ⟨rest | ⟨x | p⟩ | p, v⟩
    · exact .nil (.refl _)
    · exact given_up (Action.tokenEvents_byCode _ _)
    · exact given_up .nil
    · exact given_up .nil

/-- A group that is joined drops its link. -/
theorem joined_ledger (g : Group) (exits : List (Exit Value Payload)) (w : World) :
    Ledger TokenEvent.byRuntime g.link.toList (m.joinedEvents g exits w) (m.joined g exits w).process.subscriptions := by
  have hunlink : Ledger TokenEvent.byRuntime g.link.toList g.unlinkEvents [] := by
    unfold Group.unlinkEvents
    cases g.link with
    | none => exact .nil (.refl _)
    | some s => exact .cons (.dropped rfl (.refl _)) (.nil (.refl _))
  rw [joined_eq, joinedEvents]
  refine hunlink.trans ?_
  split
  · exact .nil (.refl _)
  · cases Verdict.ofExits exits with
    | succeeded values => exact .nil (.refl _)
    | failed c => exact .nil (.refl _)
    | interrupted => exact (World.interruptTokenEvents_byCode m.token _).ledger []

/-- The ledger is kept at the end of a round: the link of a group is dropped if all its branches have finished. -/
theorem endRound_ledger (g : Group) (branches : List Branch) (w : World) :
    Ledger TokenEvent.byRuntime (g.link.toList ++ Branch.subscriptions branches) (m.endRoundEvents g branches w)
      (m.endRound g branches w).process.subscriptions := by
  have hround : TokenEvent.AllByCode (g.roundEvents branches w) := by
    unfold Group.roundEvents
    split
    · exact World.interruptTokenEvents_byCode g.token _
    · exact .nil
  rw [endRound_eq, endRoundEvents]
  refine (hround.ledger _).trans ?_
  split
  · rename_i h
    have hnone : Branch.subscriptions branches = [] := by
      rw [Branch.eq_map_finished h, Branch.subscriptions_finished]
    rw [hnone, List.append_nil]
    exact m.joined_ledger g _ _
  · exact .nil (.refl _)

end Interpreter

/-- What becomes of the subscriptions of one interpreter, among those of others. -/
theorem Ledger.among {own : TokenEvent → Bool} {es : List TokenEvent} {l l' : List Subscription} (h : Ledger own l es l')
    (front back : List Subscription) : Ledger own (front ++ (l ++ back)) es (front ++ (l' ++ back)) := by
  have hperm (k : List Subscription) : (front ++ (k ++ back)).Perm (k ++ (back ++ front)) := by
    rw [← List.append_assoc k]
    exact List.perm_append_comm
  exact ((h.beside (back ++ front)).perm_left (hperm l)).perm_right (hperm l').symm

/-- The group goes on with what a turn makes of the branch that is at work. -/
theorem Process.turn_joining_ledger (m : Interpreter) (g : Group) (seen rest : List Branch) {p : Process} {w : World}
    (h : Ledger TokenEvent.byRuntime p.subscriptions (p.tokenEvents w) (p.turn w).process.subscriptions) :
    Ledger TokenEvent.byRuntime (joining m g seen (.running p :: rest)).subscriptions
      ((joining m g seen (.running p :: rest)).tokenEvents w)
      (Process.turn (.joining m g seen (.running p :: rest)) w).process.subscriptions := by
  have hall := h.among (g.link.toList ++ Branch.subscriptions seen) (Branch.subscriptions rest)
  rw [tokenEvents]
  simp only [Process.turn]
  split
  · rename_i e he
    rw [he] at hall
    simpa only [subscriptions, Branch.subscriptions, List.append_assoc, List.nil_append] using hall
  · simpa only [subscriptions, Branch.subscriptions, List.append_assoc] using hall
  · refine (hall.perm_left ?_).perm_right ?_ <;> simp only [subscriptions, Branch.subscriptions, List.append_assoc]
    · exact .refl _
    · exact (List.perm_append_comm_assoc _ _ _).append_left _

/-- What a turn makes of the subscriptions of a process: the runtime takes them in and drops them. -/
theorem Process.turn_ledger (p : Process) (w : World) :
    Ledger TokenEvent.byRuntime p.subscriptions (p.tokenEvents w) (p.turn w).process.subscriptions := by
  induction p, w using Process.turn.induct with
  | case1 m n w m' h =>
    rw [Process.turn, if_pos h]
    exact .nil (.refl _)
  | case2 m n w m' h =>
    rw [Process.turn, if_neg h]
    exact .nil (.refl _)
  | case3 m n w h =>
    rw [Process.turn, Process.tokenEvents, if_pos h, if_pos h]
    exact .nil (.refl _)
  | case4 m n w h =>
    rw [Process.turn, Process.tokenEvents, if_neg h, if_neg h]
    exact m.take_ledger n w
  | case5 m o w => exact m.pop_ledger o w
  | case6 m o e w =>
    rw [Process.turn, m.finalized_subscriptions o e w]
    exact .nil (.refl _)
  | case7 m o child w hc ih =>
    rw [Process.turn]
    · exact ih
    · exact hc
  | case8 m a w => exact m.pollAwaited_ledger a w
  | case9 m g seen w =>
    refine (m.endRound_ledger g seen.reverse w).perm_left ?_
    simp only [subscriptions, Branch.subscriptions, List.append_nil]
    exact (Branch.subscriptions_reverse seen).symm.append_left _
  | case10 m g seen e rest w => exact .nil (.refl _)
  | case11 m g seen p rest w r e he ih => exact turn_joining_ledger m g seen rest ih
  | case12 m g seen p rest w r hpace hns ih => exact turn_joining_ledger m g seen rest ih
  | case13 m g seen p rest w r hpace hns ih => exact turn_joining_ledger m g seen rest ih
  | case14 e w => exact .nil (.refl _)

/-! ## What a token holds besides -/

namespace TokenEvent

variable {t : TokenId} {l l' : List Subscription} {held : List (Nat × Reaction)} {e : TokenEvent} {es : List TokenEvent}
  {own : TokenEvent → Bool}

/-- What a token holds besides what is registered under some subscriptions. -/
def besides (t : TokenId) (l : List Subscription) (held : List (Nat × Reaction)) : List (Nat × Reaction) :=
  held.filter fun x => !l.contains ⟨t, x.1⟩

/-- Besides no subscriptions, a token holds all that it holds. -/
theorem besides_nil (t : TokenId) (held : List (Nat × Reaction)) : besides t [] held = held := by
  simp [besides]

/-- Taking away what is registered under some subscriptions goes entry by entry. -/
theorem besides_append (t : TokenId) (l : List Subscription) (held held' : List (Nat × Reaction)) :
    besides t l (held ++ held') = besides t l held ++ besides t l held' := List.filter_append ..

/-- It is of no account which subscriptions are taken away that the token does not hold. -/
theorem besides_congr (h : ∀ x ∈ held, (⟨t, x.1⟩ : Subscription) ∈ l ↔ (⟨t, x.1⟩ : Subscription) ∈ l') :
    besides t l held = besides t l' held := by
  refine List.filter_congr fun x hx => ?_
  rw [Bool.eq_iff_iff]
  simpa using not_congr (h x hx)

/-- What is no registration takes away from what a token holds, and from what it holds besides. -/
theorem standingAfter_besides (hn : ∀ r key, e ≠ .registered t r (some key)) :
    standingAfter t (besides t l held) e = besides t l (standingAfter t held e) := by
  cases e with
  | tripped u => by_cases hu : u = t <;> simp [standingAfter, besides, hu]
  | registered u r key =>
    cases key with
    | none => rfl
    | some key =>
      have hu : u ≠ t := fun hu => hn r key (by rw [hu])
      simp [standingAfter, hu]
  | dropped s => by_cases hs : s.token = t <;> simp [standingAfter, besides, hs, Bool.and_comm]
  | withdrawn s => by_cases hs : s.token = t <;> simp [standingAfter, besides, hs, Bool.and_comm]
  | _ => rfl

/-- An event that is no registration on a token, and what it makes of what the token holds besides: nothing, if it is one of
those that belong to the subscriptions. -/
theorem besides_entry (held : List (Nat × Reaction)) (h : Ledger.Entry own l e l') (hn : ∀ r key, e ≠ .registered t r (some key)) :
    besides t l' (standingAfter t held e) = if own e then besides t l held else standingAfter t (besides t l held) e := by
  cases h with
  | other he hl =>
    rw [he, if_neg Bool.false_ne_true, standingAfter_besides hn]
    exact besides_congr fun x _ => hl.symm.mem_iff
  | refused hl =>
    rw [show besides t l held = besides t l' held from besides_congr fun x _ => hl.mem_iff]
    exact (ite_self _).symm
  | taken he hl =>
    rename_i u r key
    have hu : u ≠ t := fun hu => hn r key (by rw [hu])
    rw [if_pos he, show standingAfter t held (.registered u r (some key)) = held from if_neg hu]
    refine besides_congr fun x _ => ?_
    rw [hl.mem_iff, List.mem_cons, or_iff_right]
    exact fun h => hu (congrArg Subscription.token h).symm
  | dropped he hl =>
    rename_i s
    have hmem (x : Nat × Reaction) : (⟨t, x.1⟩ : Subscription) ∈ l ↔ (⟨t, x.1⟩ : Subscription) = s ∨ (⟨t, x.1⟩ : Subscription) ∈ l' := by
      rw [hl.mem_iff, List.mem_cons]
    rw [if_pos he]
    simp only [standingAfter]
    split
    · rename_i hs
      subst hs
      rw [besides, besides, List.filter_filter]
      refine List.filter_congr fun x _ => ?_
      have hx : (⟨s.token, x.1⟩ : Subscription) = s ↔ x.1 = s.key := ⟨fun h => congrArg Subscription.key h, fun h => by rw [h]⟩
      rw [Bool.eq_iff_iff]
      simp [hmem, hx]
      tauto
    · rename_i hs
      refine besides_congr fun x _ => ?_
      rw [hmem, or_iff_right]
      exact fun h => hs (congrArg Subscription.token h).symm

/-- The same for a number of events. -/
theorem besides_ledger (h : Ledger own l es l') (hn : ∀ r key, .registered t r (some key) ∉ es) :
    besides t l' (es.foldl (standingAfter t) held) = (es.filter fun e => !own e).foldl (standingAfter t) (besides t l held) := by
  induction h generalizing held with
  | nil hl => exact besides_congr fun x _ => hl.symm.mem_iff
  | @cons l l₁ l' e es he _ ih =>
    have hfirst := besides_entry (t := t) held he fun r key heq => hn r key (by simp [heq])
    rw [List.foldl_cons, ih fun r key hmem => hn r key (List.mem_cons_of_mem _ hmem), hfirst]
    cases ho : own e
    · rw [if_neg Bool.false_ne_true, List.filter_cons_of_pos (by rw [ho]; rfl), List.foldl_cons]
    · rw [if_pos rfl, List.filter_cons_of_neg (by rw [ho]; nofun)]

end TokenEvent

/-- A token with a book in which stands, besides what is registered under some subscriptions, what is expected. Keys that have
been handed out will not be handed out again. -/
structure TokenBook.Leaves (t : TokenId) (b : TokenBook) (l : List Subscription) (held : List (Nat × Reaction)) : Prop where
  issued : ∀ x ∈ b.token.entries, x.1 < b.token.nextKey
  allotted : ∀ s ∈ l, s.token = t → s.key < b.token.nextKey
  besides : TokenEvent.besides t l b.token.entries = held

namespace TokenBook

open TokenEvent (standing standingAfter)

variable {t : TokenId} {b b' : TokenBook} {l l' : List Subscription} {held : List (Nat × Reaction)} {es : List TokenEvent}
  {own : TokenEvent → Bool}

/-- Nothing comes to stand that has not been registered. -/
theorem mem_of_mem_foldl (hn : ∀ r key, .registered t r (some key) ∉ es) {held : List (Nat × Reaction)} {x : Nat × Reaction}
    (hx : x ∈ es.foldl (standingAfter t) held) : x ∈ held := by
  induction es generalizing held with
  | nil => exact hx
  | cons e es ih =>
    have hrest := ih (fun r key hmem => hn r key (List.mem_cons_of_mem _ hmem)) hx
    rcases TokenEvent.mem_standingAfter.mp hrest with rfl | ⟨hx, -⟩
    · exact absurd List.mem_cons_self (hn _ _)
    · exact hx

/-- A subscription that is held after some events was held before, or it has been taken in. -/
theorem mem_of_ledger (h : Ledger own l es l') {s : Subscription} (hs : s ∈ l') :
    s ∈ l ∨ ∃ r, .registered s.token r (some s.key) ∈ es := by
  induction h with
  | nil hl => exact .inl (hl.mem_iff.mpr hs)
  | @cons l l₁ l' e es he _ ih =>
    rcases ih hs with hs | ⟨r, hr⟩
    · cases he with
      | other _ hl => exact .inl (hl.mem_iff.mpr hs)
      | refused hl => exact .inl (hl.mem_iff.mpr hs)
      | taken _ hl =>
        rcases List.mem_cons.mp (hl.mem_iff.mp hs) with rfl | hs
        · exact .inr ⟨_, List.mem_cons_self⟩
        · exact .inl hs
      | dropped _ hl => exact .inl (hl.mem_iff.mpr (List.mem_cons_of_mem _ hs))
    · exact .inr ⟨r, List.mem_cons_of_mem _ hr⟩

/-- A reaction has been registered with the next key, which is new to what the token holds and to the subscriptions. -/
theorem Leaves.registered {r : Reaction} {l₁ : List Subscription} (hb : b.Leaves t l held)
    (hentry : Ledger.Entry own l (.registered t r (some b.token.nextKey)) l₁) (hrest : l₁.Perm l')
    (hnext : b'.token.nextKey = b.token.nextKey + 1)
    (hentries : b'.token.entries = b.token.entries ++ [(b.token.nextKey, r)]) :
    b'.Leaves t l'
      (([.registered t r (some b.token.nextKey)].filter fun e => !own e).foldl (standingAfter t) held) := by
  have hfresh : (⟨t, b.token.nextKey⟩ : Subscription) ∉ l := fun hmem => Nat.lt_irrefl _ (hb.allotted _ hmem rfl)
  have hissued : ∀ x ∈ b'.token.entries, x.1 < b'.token.nextKey := by
    intro x hx
    rw [hentries, List.mem_append, List.mem_singleton] at hx
    rw [hnext]
    rcases hx with hx | rfl
    · exact Nat.lt_succ_of_lt (hb.issued x hx)
    · exact Nat.lt_succ_self _
  cases hentry with
  | other he hperm =>
    have hsame : l.Perm l' := hperm.trans hrest
    refine ⟨hissued, fun s hs ht => ?_, ?_⟩
    · rw [hnext]
      exact Nat.lt_succ_of_lt (hb.allotted s (hsame.mem_iff.mpr hs) ht)
    · have hnew : TokenEvent.besides t l [(b.token.nextKey, r)] = [(b.token.nextKey, r)] := by
        simpa [TokenEvent.besides] using hfresh
      rw [hentries, TokenEvent.besides_congr fun x _ => hsame.symm.mem_iff, TokenEvent.besides_append, hb.besides, hnew]
      simp [he, standingAfter]
  | taken he hperm =>
    have hmem (s : Subscription) : s ∈ l' ↔ s = ⟨t, b.token.nextKey⟩ ∨ s ∈ l := by
      rw [← hrest.mem_iff, hperm.mem_iff, List.mem_cons]
    refine ⟨hissued, fun s hs ht => ?_, ?_⟩
    · rw [hnext]
      rcases (hmem s).mp hs with rfl | hs
      · exact Nat.lt_succ_self _
      · exact Nat.lt_succ_of_lt (hb.allotted s hs ht)
    · have hold : TokenEvent.besides t l' b.token.entries = held := by
        rw [← hb.besides]
        refine TokenEvent.besides_congr fun x hx => ?_
        rw [hmem, or_iff_right]
        exact fun heq => Nat.ne_of_lt (hb.issued x hx) (congrArg Subscription.key heq)
      have hnew : TokenEvent.besides t l' [(b.token.nextKey, r)] = [] := by
        simp [TokenEvent.besides, hmem]
      rw [hentries, TokenEvent.besides_append, hold, hnew, List.append_nil]
      simp [he]

/-- A step of a book leaves what is expected, as soon as the ledger is kept: what the holders of the subscriptions do is of no
account. -/
theorem Step.leaves (h : Step t b es b') (hl : Ledger own l es l') (hb : b.Leaves t l held) :
    b'.Leaves t l' ((es.filter fun e => !own e).foldl (standingAfter t) held) := by
  have hentries := h.entries
  rcases h.nextKey with ⟨hnext, hn⟩ | ⟨hnext, r, rfl⟩
  · refine ⟨fun x hx => ?_, fun s hs ht => ?_, ?_⟩
    · rw [hentries] at hx
      rw [hnext]
      exact hb.issued x (mem_of_mem_foldl hn hx)
    · rw [hnext]
      rcases mem_of_ledger hl hs with hs | ⟨r, hr⟩
      · exact hb.allotted s hs ht
      · exact absurd (ht ▸ hr) (hn r s.key)
    · rw [hentries, TokenEvent.besides_ledger hl hn, hb.besides]
  · cases hl with
    | cons he hes =>
      cases hes with
      | nil hl => exact hb.registered he hl hnext (by simpa [standingAfter] using hentries)

/-- What is expected of a token, after what happens to it: the doings of those who hold the subscriptions are of no account. -/
theorem Run.leaves (h : Run t b es b') (hl : Ledger own l es l') (hb : b.Leaves t l held) :
    b'.Leaves t l' ((es.filter fun e => !own e).foldl (standingAfter t) held) := by
  induction h generalizing l' with
  | nil =>
    cases hl with
    | nil hl =>
      exact ⟨hb.issued, fun s hs => hb.allotted s (hl.mem_iff.mpr hs),
        (TokenEvent.besides_congr fun x _ => hl.symm.mem_iff).trans hb.besides⟩
  | snoc _ hs ih =>
    obtain ⟨l₁, hl, hl'⟩ := hl.split
    rw [List.filter_append, List.foldl_append]
    exact hs.leaves hl' (ih hl)

/-- Others have registered what they expect of the token. -/
theorem Run.leaves_others (h : Run t b es b') (hb : b.Leaves t l held) : b'.Leaves t l (es.foldl (standingAfter t) held) := by
  have hothers : Ledger (fun _ => false) l es l := .others fun _ _ => rfl
  have hleaves := h.leaves hothers hb
  rwa [Bool.not_false, List.filter_true] at hleaves

end TokenBook

end Interruptible
