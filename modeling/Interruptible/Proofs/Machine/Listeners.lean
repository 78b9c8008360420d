import Interruptible.Proofs.Machine.FirstRound
import Interruptible.Proofs.Machine.Holdings
import Interruptible.Proofs.Machine.Subscriptions

/-!
# The listeners that a run leaves

A run goes on amid the calls of others (`Process.Amid`): they register listeners with its token and drop them, trip tokens, run
code and other interpreters, and the callbacks and futures of the run do the same. When the run has settled, its token holds what
all of these have left there, and nothing of its own (`no_listener_leak`).

Two things make up the argument. What a token holds besides the subscriptions of the run is a matter of what others do
(`Process.Amid.leaves`), and a run that has settled has no subscriptions. The tokens of groups and finalizers are newer than
those of the interpreters that wait for them (`Process.Layered`), so that what is registered inside is registered with none of
the tokens outside (`Process.Layered.apart`).
-/

namespace Interruptible

/-! ## A run amid the calls of others -/

/-- A turn of a process, or a call of somebody else, in the world in which it begins. -/
inductive Happening where
  | turn (p : Process) (w : World)
  | call (c : TokenCall) (w : World)

namespace Happening

/-- What the runtime does to tokens on behalf of the process: the registrations of its host futures and groups, and their ends. -/
def own : Happening → List TokenEvent
  | .turn p w => (p.tokenEvents w).filter (·.byRuntime)
  | .call _ _ => []

/-- What else happens to tokens: what the code of the process does, and all that others do. -/
def foreign : Happening → List TokenEvent
  | .turn p w => (p.tokenEvents w).filter fun e => !e.byRuntime
  | .call c w => c.events w

end Happening

/-- A process takes turns as long as it has not settled. In between others make calls that concern tokens, and whatever else is
no matter of tokens may change. -/
inductive Process.Amid : Process → World → List Happening → Process → World → Prop where
  | done (p : Process) (w : World) : Amid p w [] p w
  | turn {p q : Process} {w v : World} {hs : List Happening} (hp : p.exit? = none)
      (course : Amid (p.turn w).process (p.turn w).world hs q v) : Amid p w (.turn p w :: hs) q v
  | call {p q : Process} {w v : World} {hs : List Happening} (c : TokenCall) (course : Amid p (c.run w) hs q v) :
    Amid p w (.call c w :: hs) q v
  | quiet {p q : Process} {w w' v : World} {hs : List Happening} (ht : w'.tokens = w.tokens) (course : Amid p w' hs q v) :
    Amid p w hs q v

/-- The tokens of the interpreters that wait for the one that is at work. -/
def Process.above : Process → List TokenId
  | .finalizing m _ child => m.token :: child.above
  | .joining m _ _ (.running p :: _) => m.token :: p.above
  | _ => []

namespace Process.Amid

variable {p q p' : Process} {w v v' : World} {hs hs' : List Happening}

theorem trans (course : Amid p w hs q v) (course' : Amid q v hs' p' v') : Amid p w (hs ++ hs') p' v' := by
  induction course with
  | done => exact course'
  | turn hp _ ih => exact .turn hp (ih course')
  | call c _ ih => exact .call c (ih course')
  | quiet ht _ ih => exact .quiet ht (ih course')

/-- Nobody else calls. -/
theorem alone (n : Nat) (p : Process) (w : World) :
    Amid p w ((p.alone n w).1.map fun x => .turn x.1 x.2) (p.alone n w).2.1 (p.alone n w).2.2 := by
  induction n generalizing p w with
  | zero => exact .done p w
  | succ n ih =>
    unfold Process.alone
    split
    · exact .done p w
    · rename_i hp
      exact .turn hp (ih _ _)

/-- What the token of a run holds besides the subscriptions of the run is what others have registered. -/
theorem leaves {t : TokenId} (course : Amid p w hs q v) {b : TokenBook} {held : List (Nat × Reaction)} (hw : w.Shows t b)
    (hb : b.Leaves t p.subscriptions held) :
    ∃ b', v.Shows t b' ∧
      b'.Leaves t q.subscriptions ((hs.flatMap Happening.foreign).foldl (TokenEvent.standingAfter t) held) := by
  induction course generalizing b held with
  | done => exact ⟨b, hw, hb⟩
  | @turn p q w v hs hp _ ih =>
    obtain ⟨x, hx, hrun⟩ := p.turn_notes w b hw
    rw [List.flatMap_cons, List.foldl_append]
    exact ih hx (hrun.leaves (p.turn_ledger w) hb)
  | @call p q w v hs c _ ih =>
    obtain ⟨x, hx, hrun⟩ := World.Notes.call c w b hw
    rw [List.flatMap_cons, List.foldl_append]
    exact ih hx (hrun.leaves_others hb)
  | @quiet p q w w' v hs ht _ ih =>
    exact ih ⟨by rw [ht]; exact hw.token, hw.due⟩ hb

/-- What the runtime takes in and drops on behalf of a run. -/
theorem ledger (course : Amid p w hs q v) :
    Ledger TokenEvent.byRuntime p.subscriptions (hs.flatMap Happening.own) q.subscriptions := by
  induction course with
  | done => exact .nil (.refl _)
  | @turn p q w v hs hp _ ih =>
    rw [List.flatMap_cons]
    exact (p.turn_ledger w).owned.trans ih
  | call c _ ih => exact ih
  | quiet _ _ ih => exact ih

end Process.Amid

/-! ## Tokens of their own -/

/-- An interpreter with a token, in whose groups and finalizers all tokens are newer; there are `n` tokens. -/
inductive Process.Layered (n : Nat) : TokenId → Process → Prop where
  | free {t : TokenId} {p : Process} (hp : p.Free t) (ht : t < n) : Layered n t p
  | awaiting {m : Interpreter} (a : Awaited) (ht : m.token < n) : Layered n m.token (.awaiting m a)
  | joining {m : Interpreter} {g : Group} {seen rest : List Branch} (hg : m.token < g.token) (ht : g.token < n)
      (h : ∀ q, .running q ∈ seen ++ rest → Layered n g.token q) : Layered n m.token (.joining m g seen rest)
  | finalizing {m : Interpreter} {o : Outcome} {t : TokenId} {child : Process} (ht : m.token < t) (h : Layered n t child) :
    Layered n m.token (.finalizing m o child)

namespace Process.Layered

variable {n n' : Nat} {t : TokenId} {p : Process}

/-- The token of an interpreter is older than those that are made next. -/
theorem lt (h : Layered n t p) : t < n := by
  induction h with
  | free _ ht => exact ht
  | awaiting _ ht => exact ht
  | joining hg ht _ => exact Nat.lt_trans hg ht
  | finalizing ht _ ih => exact Nat.lt_trans ht ih

theorem mono (h : Layered n t p) (hn : n ≤ n') : Layered n' t p := by
  induction h with
  | free hp ht => exact .free hp (Nat.lt_of_lt_of_le ht hn)
  | awaiting a ht => exact .awaiting a (Nat.lt_of_lt_of_le ht hn)
  | joining hg ht _ ih => exact .joining hg (Nat.lt_of_lt_of_le ht hn) ih
  | finalizing ht _ ih => exact .finalizing ht ih

end Process.Layered

namespace Interpreter

variable (m : Interpreter) {w : World}

/-- The token of a group that starts is newer than that of the interpreter. -/
theorem fanOut_layered (children : List Node) (ht : m.token < w.tokens.size) :
    (m.fanOut children w).process.Layered (m.fanOut children w).world.tokens.size m.token := by
  have hsize : w.newToken.2.tokens.size ≤ (m.fanOut children w).world.tokens.size :=
    World.tokens_size_le fun t => (World.Notes.react w.newToken.2 m.token (.forward w.newToken.1)).onward rfl
  have hgroup : w.newToken.1 < (m.fanOut children w).world.tokens.size := Nat.lt_of_lt_of_le w.newToken_lt hsize
  refine .joining (g := { token := w.newToken.1, link := _ }) ht hgroup fun q hq => ?_
  obtain ⟨n, -, hn⟩ := List.mem_map.mp hq
  obtain rfl := Branch.running.inj hn
  exact .free (.next _ rfl) hgroup

/-- What comes of taking a node: the interpreter waits for nothing, or for a host future, or for a group that it starts. -/
theorem take_process (n : Node) (w : World) :
    (m.take n w).process.Free m.token ∨ (∃ a, (m.take n w).process = .awaiting m a) ∨
      ∃ children v, m.take n w = m.fanOut children v ∧ v.tokens = w.tokens := by
  have h := m.take_taken n w
  generalize hp : (m.take n w).process = p at h ⊢
  cases h with
  | next n' ht hs hf => exact .inl (.next _ ht)
  | popping | interrupt | refused => exact .inl (.popping _ rfl)
  | awaiting factory onReject a => exact .inr (.inl ⟨a, rfl⟩)
  | joining children g => exact .inr (.inr ⟨children, _, rfl, rfl⟩)

/-- The tokens that there are when a node has been taken are newer than that of the interpreter. -/
theorem take_layered (n : Node) (ht : m.token < w.tokens.size) :
    (m.take n w).process.Layered (m.take n w).world.tokens.size m.token := by
  have hlt := Nat.lt_of_lt_of_le ht (m.take_later n w).tokens
  rcases m.take_process n w with h | ⟨a, h⟩ | ⟨children, v, h, hv⟩
  · exact .free h hlt
  · rw [h]
    exact .awaiting a hlt
  · rw [h]
    exact m.fanOut_layered children (by rwa [hv])

/-- The tokens that there are when a frame has been popped are newer than that of the interpreter. -/
theorem pop_layered (o : Outcome) (ht : m.token < w.tokens.size) :
    (m.pop o w).process.Layered (m.pop o w).world.tokens.size m.token := by
  have hlt : m.token < (m.pop o w).world.tokens.size :=
    Nat.lt_of_lt_of_le ht (World.tokens_size_le fun t => m.pop_notes o w)
  unfold pop at hlt ⊢
  split
  · exact .free (.settled _) ht
  · rename_i frame frames hpop
    rw [hpop] at hlt
    cases frame with
    | finalize n =>
      exact .finalizing (m := { m with frames }) ht (.free (.next _ rfl) w.newToken_lt)
    | restore env => exact .free (.popping _ rfl) ht
    | apply k =>
      cases o with
      | value p => exact .free (.next _ rfl) hlt
      | _ => exact .free (.popping _ rfl) ht
    | fold recover k =>
      cases o with
      | value p => exact .free (.next _ rfl) hlt
      | failure c => exact .free (.next _ rfl) hlt
      | interruption => exact .free (.popping _ rfl) ht

/-- What comes of looking at a host future: the interpreter waits for nothing, or for what is left of the future. -/
theorem pollAwaited_process (a : Awaited) (w : World) :
    (m.pollAwaited a w).process.Free m.token ∨ ∃ a', (m.pollAwaited a w).process = .awaiting m a' := by
  unfold pollAwaited
  split
  · exact .inl (.popping _ rfl)
  · rcases a.future.poll a.op (w.attend a.op) with ⟨rest | ⟨x | p⟩ | p, v⟩
    · exact .inr ⟨_, rfl⟩
    · exact .inl (.next _ rfl)
    · exact .inl (.next _ rfl)
    · exact .inl (.next _ rfl)

/-- An interpreter that has joined its group waits for nothing. -/
theorem joined_process (g : Group) (exits : List (Exit Value Payload)) (w : World) :
    (m.joined g exits w).process.Free m.token := by
  rw [joined_eq]
  split
  · exact .popping _ rfl
  · cases Verdict.ofExits exits with
    | succeeded values => exact .next _ rfl
    | failed c => exact .next _ rfl
    | interrupted => exact .popping _ rfl

end Interpreter

namespace Process

/-- An interpreter that waits for nothing may start a group or a finalizer, whose token is the newest one. -/
theorem Free.turn_layered {t : TokenId} {p : Process} (h : p.Free t) {w : World} (ht : t < w.tokens.size) :
    (p.turn w).process.Layered (p.turn w).world.tokens.size t := by
  have hlt : t < (p.turn w).world.tokens.size := Nat.lt_of_lt_of_le ht (p.turn_later w).tokens
  cases h with
  | @next m n hm =>
    subst hm
    rw [(turn_next m n w).1]
    exact .free (.counted n rfl) hlt
  | @counted m n hm =>
    subst hm
    rw [turn]
    split
    · exact .free (.popping _ rfl) ht
    · exact m.take_layered n ht
  | @popping m o hm =>
    subst hm
    exact m.pop_layered o ht
  | settled e => exact .free (.settled e) hlt

namespace Layered

variable {n N : Nat} {m : Interpreter} {g g' : Group} {seen rest : List Branch}

/-- A group goes on with the same token. -/
theorem rejoined (hg : m.token < g.token) (ht : g.token < N) (hg' : g'.token = g.token)
    (h : ∀ q, .running q ∈ seen ++ rest → q.Layered N g.token) : (Process.joining m g' seen rest).Layered N m.token :=
  .joining (by rwa [hg']) (by rwa [hg']) (by rwa [hg'])

/-- One of the branches has taken a turn. -/
theorem turn_branch {q : Process} {w : World} (hg : m.token < g.token) (ht : g.token < (q.turn w).world.tokens.size)
    (hq : (q.turn w).process.Layered (q.turn w).world.tokens.size g.token)
    (h : ∀ q', .running q' ∈ seen ++ rest → q'.Layered (q.turn w).world.tokens.size g.token) :
    ((Process.joining m g seen (.running q :: rest)).turn w).process.Layered (q.turn w).world.tokens.size m.token := by
  obtain ⟨-, ⟨-, g', hg', hturn⟩ | ⟨-, hturn⟩⟩ := turn_joining m g seen rest q w <;> rw [hturn]
  · refine rejoined hg ht hg' fun q' hq' => ?_
    rcases List.mem_cons.mp hq' with hq' | hq'
    · unfold Branch.ofProcess at hq'
      split at hq'
      · cases hq'
      · rwa [Branch.running.inj hq']
    · exact h q' hq'
  · refine rejoined hg ht rfl fun q' hq' => ?_
    rcases List.mem_append.mp hq' with hq' | hq'
    · exact h q' (List.mem_append_left _ hq')
    · rcases List.mem_cons.mp hq' with hq' | hq'
      · rwa [Branch.running.inj hq']
      · exact h q' (List.mem_append_right _ hq')

end Layered

/-- A turn keeps the order of the tokens, and takes a new one where it needs one. -/
theorem turn_layered {n : Nat} {t : TokenId} {p : Process} (h : p.Layered n t) (w : World) (hn : n ≤ w.tokens.size) :
    (p.turn w).process.Layered (p.turn w).world.tokens.size t := by
  have hsize : n ≤ (p.turn w).world.tokens.size := Nat.le_trans hn (p.turn_later w).tokens
  induction h generalizing w with
  | free hp ht => exact hp.turn_layered (Nat.lt_of_lt_of_le ht hn)
  | @awaiting m a ht =>
    rcases m.pollAwaited_process a w with hp | ⟨a', ha⟩
    · exact .free hp (Nat.lt_of_lt_of_le ht hsize)
    · have hturn : (turn (.awaiting m a) w).process = .awaiting m a' := ha
      rw [hturn]
      exact .awaiting a' (Nat.lt_of_lt_of_le ht hsize)
  | @joining m g seen rest hg ht hb ih =>
    have hlt := Nat.lt_of_lt_of_le ht hsize
    cases rest with
    | nil =>
      rw [turn, Interpreter.endRound_eq] at hsize hlt ⊢
      split
      · rename_i h
        rw [if_pos h] at hlt
        exact .free (m.joined_process g _ _) (Nat.lt_trans hg hlt)
      · rename_i h
        rw [if_neg h] at hsize hlt
        exact Layered.rejoined hg hlt rfl fun q hq => (hb q (by simpa using hq)).mono hsize
    | cons b rest =>
      cases b with
      | finished e =>
        exact Layered.rejoined hg hlt rfl fun q hq => (hb q (by simpa [or_left_comm] using hq)).mono hsize
      | running q =>
        have hworld := (turn_joining m g seen rest q w).1
        rw [hworld] at hsize hlt ⊢
        exact Layered.turn_branch hg hlt (ih q (by simp) w hn hsize) fun q' hq' => (hb q' (by grind)).mono hsize
  | @finalizing m o t child ht hc ih =>
    cases hchild : child.exit? with
    | none =>
      rw [turn_finalizing m o hchild] at hsize ⊢
      exact .finalizing ht (ih w hn hsize)
    | some e =>
      obtain rfl := exit?_eq_some hchild
      exact .free (m.finalized_free (X := Stake.None) o e w).process (Nat.lt_of_lt_of_le (Nat.lt_trans ht hc.lt) hsize)

end Process

/-- A host operation is registered with one token only, if with any. -/
def TokenEvent.StopsOn (t : TokenId) (es : List TokenEvent) : Prop :=
  ∀ u op key, .registered u (.stop op) key ∈ es → u = t

namespace TokenEvent.StopsOn

variable {t : TokenId} {es es' : List TokenEvent}

/-- Host operations are registered with one token only, in two parts of what happens as in each. -/
theorem append (h : StopsOn t es) (h' : StopsOn t es') : StopsOn t (es ++ es') := fun u op key hmem =>
  (List.mem_append.mp hmem).elim (h u op key) (h' u op key)

/-- Code registers no host operation with a token. -/
theorem of_code (h : AllByCode es) : StopsOn t es := fun _ _ _ hmem => nomatch h _ hmem

/-- Dropping a subscription registers no host operation. -/
theorem cons_dropped (h : StopsOn t es) (s : Subscription) : StopsOn t (.dropped s :: es) := fun u op key hmem =>
  h u op key (by simpa using hmem)

theorem nil : StopsOn t [] := of_code .nil

end TokenEvent.StopsOn

/-- A reaction is registered with the token that it is for. -/
theorem World.reactTokenEvents_stopsOn (w : World) (t : TokenId) (r : Reaction) :
    TokenEvent.StopsOn t (w.reactTokenEvents t r) := by
  intro u op key hmem
  rcases w.reactTokenEvents_cases t r with ⟨s, rfl, -, h⟩ | ⟨es, -, h, hes⟩ <;> rw [h] at hmem
  · simp_all
  · rcases List.mem_cons.mp hmem with heq | hmem
    · exact (TokenEvent.registered.inj heq).1
    · nomatch hes _ hmem

namespace Interpreter

variable (m : Interpreter)

/-- An interpreter registers its host futures with its own token. -/
theorem takeEvents_stopsOn (n : Node) (w : World) : TokenEvent.StopsOn m.token (m.takeEvents n w) := by
  unfold takeEvents
  split
  · exact .of_code (Action.tokenEvents_byCode _ _)
  · refine .append (.of_code (Action.tokenEvents_byCode _ _)) ?_
    split
    · exact .of_code (Action.tokenEvents_byCode _ _)
    · exact .nil
  · exact .of_code (Action.tokenEvents_byCode _ _)
  · exact .of_code (Action.tokenEvents_byCode _ _)
  · exact .of_code (World.interruptTokenEvents_byCode _ _)
  · exact .of_code (Action.tokenEvents_byCode _ _)
  · exact World.reactTokenEvents_stopsOn _ _ _
  · refine (World.reactTokenEvents_stopsOn _ _ _).append ?_
    split
    · exact .nil
    · refine .append (.of_code (Action.tokenEvents_byCode _ _)) ?_
      split
      · exact .nil
      · exact .cons_dropped .nil _
  · exact .nil

/-- Popping a frame registers a host operation with the token of the interpreter only. -/
theorem popEvents_stopsOn (o : Outcome) (w : World) : TokenEvent.StopsOn m.token (m.popEvents o w) := by
  unfold popEvents
  split
  · exact .nil
  · split
    · exact .of_code (Action.tokenEvents_byCode _ _)
    · exact .of_code (Action.tokenEvents_byCode _ _)
    · exact .of_code (Action.tokenEvents_byCode _ _)
    · exact .nil

/-- The end of a round registers no host operation with another token. -/
theorem endRoundEvents_stopsOn (g : Group) (branches : List Branch) (w : World) :
    TokenEvent.StopsOn m.token (m.endRoundEvents g branches w) := by
  have hunlink : TokenEvent.StopsOn m.token g.unlinkEvents := by
    unfold Group.unlinkEvents
    cases g.link with
    | none => exact .nil
    | some s => exact .cons_dropped .nil s
  unfold endRoundEvents Group.roundEvents
  refine .append ?_ ?_
  · split
    · exact .of_code (World.interruptTokenEvents_byCode _ _)
    · exact .nil
  · split
    · refine hunlink.append ?_
      split
      · exact .nil
      · split
        · exact .of_code (World.interruptTokenEvents_byCode _ _)
        · exact .nil
    · exact .nil

end Interpreter

/-- Polling a future registers its operation with the token of the interpreter only. -/
theorem Awaited.tokenEvents_stopsOn (a : Awaited) (t : TokenId) (w : World) : TokenEvent.StopsOn t (a.tokenEvents w) := by
  unfold Awaited.tokenEvents
  split
  · exact .cons_dropped .nil _
  · refine .append (.of_code (a.future.tokenEvents_byCode _)) ?_
    split
    · exact .nil
    · exact .cons_dropped (.of_code (Action.tokenEvents_byCode _ _)) _
    · exact .cons_dropped .nil _

/-- Inside groups and finalizers no host future is registered with a token from outside. -/
theorem Process.Layered.apart {n : Nat} {t : TokenId} {p : Process} (h : p.Layered n t) {w : World} {u : TokenId}
    {op : OperationId} {key : Option Nat} (hmem : .registered u (.stop op) key ∈ p.tokenEvents w) :
    t ≤ u ∧ u ∉ p.above := by
  induction h with
  | @free t p hp ht =>
    cases hp with
    | next n hm => exact absurd hmem List.not_mem_nil
    | @counted m n hm =>
      rw [tokenEvents] at hmem
      split at hmem
      · exact absurd hmem List.not_mem_nil
      · rw [m.takeEvents_stopsOn n w _ _ _ hmem, hm]
        exact ⟨Nat.le_refl t, List.not_mem_nil⟩
    | @popping m o hm =>
      rw [m.popEvents_stopsOn o w _ _ _ hmem, hm]
      exact ⟨Nat.le_refl t, List.not_mem_nil⟩
    | settled e => exact absurd hmem List.not_mem_nil
  | @awaiting m a ht =>
    rw [a.tokenEvents_stopsOn m.token w _ _ _ hmem]
    exact ⟨Nat.le_refl _, List.not_mem_nil⟩
  | @joining m g seen rest hg ht hb ih =>
    rcases rest with _ | ⟨p | e, rest⟩
    · rw [m.endRoundEvents_stopsOn g _ w _ _ _ hmem]
      exact ⟨Nat.le_refl _, List.not_mem_nil⟩
    · obtain ⟨hle, hnot⟩ := ih p (by simp) hmem
      have hlt := Nat.lt_of_lt_of_le hg hle
      refine ⟨Nat.le_of_lt hlt, fun h => ?_⟩
      rcases List.mem_cons.mp h with rfl | h
      · exact Nat.lt_irrefl _ hlt
      · exact hnot h
    · exact absurd hmem List.not_mem_nil
  | @finalizing m o t child ht hc ih =>
    obtain ⟨hle, hnot⟩ := ih hmem
    have hlt := Nat.lt_of_lt_of_le ht hle
    refine ⟨Nat.le_of_lt hlt, fun h => ?_⟩
    rcases List.mem_cons.mp h with rfl | h
    · exact Nat.lt_irrefl _ hlt
    · exact hnot h

namespace Process.Amid

variable {p q : Process} {w v : World} {hs : List Happening}

/-- All along, tokens inside are newer than those outside. -/
theorem layered {t : TokenId} (course : Amid p w hs q v) (h : p.Layered w.tokens.size t) :
    ∀ p' w', .turn p' w' ∈ hs → p'.Layered w'.tokens.size t := by
  induction course with
  | done => exact fun _ _ hmem => nomatch hmem
  | @turn p q w v hs hp _ ih =>
    intro p' w' hmem
    rcases List.mem_cons.mp hmem with heq | hmem
    · obtain ⟨rfl, rfl⟩ := Happening.turn.inj heq
      exact h
    · exact ih (turn_layered h w (Nat.le_refl _)) p' w' hmem
  | @call p q w v hs c _ ih =>
    intro p' w' hmem
    have hsize : w.tokens.size ≤ (c.run w).tokens.size := World.tokens_size_le fun t => .call c w
    exact ih (h.mono hsize) p' w' (by simpa using hmem)
  | @quiet p q w w' v hs ht _ ih => exact ih (h.mono (Nat.le_of_eq (by rw [ht])))

end Process.Amid

/-- No listener is left behind. A run under a token that has been made for it may be interrupted or not, and others may do
with tokens whatever they like; when it has settled, the token holds what they and the code of the run have registered and not
dropped. All that was registered on behalf of a host future or a group, with whatever token, has been dropped again, and no
host future inside a group or a finalizer was registered with a token from outside. -/
theorem no_listener_leak (w : World) (calls : List TokenCall) (n : Node) (env : Environment) (k : Nat)
    {hs : List Happening} {q : Process} {v : World}
    (course : Process.Amid (.start n env w.newToken.1 k) (TokenCall.runAll calls w.newToken.2) hs q v) :
    (q.exit? ≠ none →
      v.holds w.newToken.1 =
        TokenEvent.standing w.newToken.1 (TokenCall.history calls w.newToken.2 ++ hs.flatMap Happening.foreign)) ∧
    (q.exit? ≠ none → ∀ past rest t r key, hs.flatMap Happening.own = past ++ .registered t r (some key) :: rest →
      .dropped { token := t, key } ∈ rest) ∧
    ∀ p u, .turn p u ∈ hs → ∀ t op key, .registered t (.stop op) key ∈ p.tokenEvents u → t ∉ p.above := by
  have hnew : w.newToken.2.Shows w.newToken.1 {} := ⟨by simp [World.newToken], fun _ => rfl⟩
  obtain ⟨x, hx, hrun⟩ := TokenCall.runAll_shows calls hnew
  refine ⟨fun hq => ?_, fun hq past rest t r key hes => ?_, fun p u hturn t op key hmem => ?_⟩
  · have hstart : TokenBook.Leaves w.newToken.1 {} [] [] := ⟨fun _ h => absurd h List.not_mem_nil, fun _ h => absurd h List.not_mem_nil, rfl⟩
    obtain ⟨b, hb, hleaves⟩ := course.leaves hx (hrun.leaves_others hstart)
    rw [Process.subscriptions_settled hq] at hleaves
    have hentries := hleaves.besides
    rw [TokenEvent.besides_nil] at hentries
    rw [TokenEvent.standing_append, World.holds, hb.token]
    exact hentries
  · have hledger := course.ledger
    rw [Process.subscriptions_settled hq] at hledger
    have hown : (TokenEvent.registered t r (some key)).byRuntime = true := by
      have hmem : TokenEvent.registered t r (some key) ∈ hs.flatMap Happening.own := by simp [hes]
      obtain ⟨x, -, hx⟩ := List.mem_flatMap.mp hmem
      cases x with
      | turn p u => exact (List.mem_filter.mp hx).2
      | call c u => exact absurd hx List.not_mem_nil
    exact hledger.balanced hes hown
  · have hsize : w.newToken.1 < (TokenCall.runAll calls w.newToken.2).tokens.size :=
      (Array.getElem?_eq_some_iff.mp hx.token).1
    exact ((course.layered (.free (.next n rfl) hsize) p u hturn).apart hmem).2

/-- A listener that makes a note. -/
def noting (s : String) : Listener := .ask (.log (.str s)) fun _ => .done

/-- Two listeners are registered. -/
def earlyCalls : List TokenCall :=
  [.listen 0 (.call (noting "first")), .perform (.subscribe 0 (noting "second") fun _ => .pure ())]

/-- One more listener is registered, and the first one is dropped. -/
def lateCall : TokenCall :=
  .perform (.subscribe 0 (noting "third") fun _ => .ask (.unsubscribe { token := 0, key := 0 }) fun _ => .pure ())

/-- A group with a branch that waits in vain and one that fails, and what recovers from that. -/
def recoveredGroup : Node :=
  .matchCause (.all [.liftPromise (fun _ => .pure .never) fun x => .pure (.fail x), .fail (.fail (.str "no"))])
    (fun _ => .pure (.succeed .unit)) fun p => .pure (.succeed p)

/-- The world in which the group starts. -/
def listenedWorld : World := TokenCall.runAll earlyCalls (World.newToken {}).2

/-- The group as it waits for its first branch. -/
def waitingGroup : History × Process × World := Process.alone 8 (.start recoveredGroup (.plain .null) 0 9) listenedWorld

/-- The rest of the run, after the call. -/
def groupEnd : History × Process × World := waitingGroup.2.1.alone 40 (lateCall.run waitingGroup.2.2)

/-- The course of the group that recovers: it starts, others call while it waits, and it settles. -/
theorem recoveredGroup_course :
    Process.Amid (.start recoveredGroup (.plain .null) 0 9) listenedWorld
      (waitingGroup.1.map (fun x => .turn x.1 x.2) ++ .call lateCall waitingGroup.2.2 :: groupEnd.1.map fun x => .turn x.1 x.2)
      (.settled (.success .unit)) groupEnd.2.2 :=
  (Process.Amid.alone 8 _ _).trans (.call lateCall (.alone 40 _ _))

/-- The token of the run is left with the three listeners of others, without the first one that has been dropped, and with none
of the run. -/
theorem no_listener_leak_recoveredGroup : ∃ (hs : List Happening) (v : World),
    Process.Amid (.start recoveredGroup (.plain .null) 0 9) listenedWorld hs (.settled (.success .unit)) v ∧
      waitingGroup.2.2.holds 0 =
        [(0, .call (noting "first")), (1, .call (noting "second")), (2, .forward 1)] ∧
      v.holds 0 = [(1, .call (noting "second")), (3, .call (noting "third"))] ∧
      v.holds 0 =
        TokenEvent.standing 0 (TokenCall.history earlyCalls (World.newToken {}).2 ++ hs.flatMap Happening.foreign) ∧
      ∀ past rest t r key, hs.flatMap Happening.own = past ++ .registered t r (some key) :: rest →
        .dropped { token := t, key } ∈ rest :=
  have hleak := no_listener_leak {} earlyCalls recoveredGroup (.plain .null) 9 recoveredGroup_course
  ⟨_, _, recoveredGroup_course, rfl, rfl, hleak.1 nofun, hleak.2.1 nofun⟩

end Interruptible
