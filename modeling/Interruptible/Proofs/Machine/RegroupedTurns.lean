import Interruptible.Proofs.Machine.Regroupings

/-!
# Keeping up with an effect that is grouped in another way

What the turns of the two interpreters have to do with each other (`Process.Regroups.turn`): a case for each thing that the first
one can do in a turn. Popping is an induction on the frames, since any number of continuations that hand their value back may lie
above the frame that the first interpreter pops; taking a node is one on the node, since it may be handed back any number of
times.
-/

namespace Interruptible

variable {idle : Bool}

/-! ## Popping frames -/

section

variable {m m' : Interpreter} {w w' : World}

/-- Paired interpreters may count differently: one of them may have counted one more instruction. -/
theorem Interpreter.Paired.tick (hm : m.Paired m') : m.Paired m'.tick := ⟨hm.env, hm.token, hm.suppressed⟩

/-- Paired interpreters may have different frames: one of them may have one more. -/
theorem Interpreter.Paired.push_right (hm : m.Paired m') (f' : Frame) : m.Paired (m'.push f') :=
  ⟨hm.env, hm.token, hm.suppressed⟩

/-- Paired interpreters may have different frames on top. -/
theorem Interpreter.Paired.push (hm : m.Paired m') (f f' : Frame) : (m.push f).Paired (m'.push f') :=
  ⟨hm.env, hm.token, hm.suppressed⟩

/-- Interpreters that are paired find their tokens alike. -/
theorem Interpreter.Paired.isInterrupted (hm : m.Paired m') (hw : w.Alike w') :
    w'.isInterrupted m'.token = w.isInterrupted m.token := by
  rw [hw.isInterrupted, hm.token]

/-- Callbacks that build trees which are related go on to be related. -/
theorem Interpreter.Paired.goOn (hm : m.Paired m') {a a' : Action Node}
    (h : a.Agrees (fun n n' => n.RegroupsOver idle m.frames.frames n' m'.frames.frames) a')
    (hfail : ∀ c, (Node.fail c).RegroupsOver idle m.frames.frames (.fail c) m'.frames.frames) (hw : w.Alike w') :
    (m.goOn a w).Regroups idle (m'.goOn a' w') :=
  have hbuilt := h.built hfail hw
  ⟨.next hm hbuilt.1, hbuilt.2, rfl⟩

/-- Paired interpreters go on with code that agrees, up to how the chains that it builds are grouped. -/
theorem Interpreter.Paired.goOn_plain (hm : m.Paired m') (hs : Frame.StackRegroups idle m.frames.frames m'.frames.frames)
    {a a' : Action Node} (h : a.Agrees (Node.Regroups idle) a') (hw : w.Alike w') :
    (m.goOn a w).Regroups idle (m'.goOn a' w') :=
  hm.goOn (h.mono fun _ _ hn => .plain hn hs) (fun c => .plain (.fail c) hs) hw

/-- Going on after the first of two continuations, of which the other interpreter has made one. -/
theorem Interpreter.Paired.goOn_joint (hm : m.Paired m') {f f' g g' : Payload → Action Node}
    (hf : ∀ p, (f p).Agrees (Node.Regroups idle) (f' p)) (hg : ∀ p, (g p).Agrees (Node.Regroups idle) (g' p))
    (hs : Frame.StackRegroups idle m.frames.frames m'.frames.frames) (p : Payload) (hw : w.Alike w') :
    (m.goOn (Node.joint f g p) w).Regroups idle ((m'.push (.apply g')).goOn (f' p) w') := by
  have hs' : Frame.StackRegroups idle (.apply g :: m.frames.frames) (.apply g' :: m'.frames.frames) := .cons (.apply hg) hs
  have hm' : m.Paired (m'.push (.apply g')) := ⟨hm.env, hm.token, hm.suppressed⟩
  exact hm'.goOn ((hf p).map_left fun n n' hn => .pushed hn hs') (fun c => .failing c hs') hw

/-- Popping a frame. -/
theorem Frame.Regroups.pop {f f' : Frame} (hf : f.Regroups idle f') (hm : m.Paired m')
    (hs : Frame.StackRegroups idle m.frames.frames m'.frames.frames) (o : Outcome) (hw : w.Alike w') :
    ((m.push f).pop o w).Regroups idle ((m'.push f').pop o w') ∧ Call.Regrouped idle (f.calls o) (f'.calls o) := by
  have hpass : Turn.Regroups idle { process := .popping m o, world := w } { process := .popping m' o, world := w' } :=
    ⟨.popping hm hs o, hw, rfl⟩
  rw [Interpreter.pop_push, Interpreter.pop_push]
  cases hf with
  | apply hk =>
    cases o with
    | value p => exact ⟨hm.goOn_plain hs (hk p) hw, .cons (.apply hk p) .nil⟩
    | failure c => exact ⟨hpass, .nil⟩
    | interruption => exact ⟨hpass, .nil⟩
  | fold hr hk =>
    cases o with
    | value p => exact ⟨hm.goOn_plain hs (hk p) hw, .cons (.apply hk p) .nil⟩
    | failure c => exact ⟨hm.goOn_plain hs (hr c) hw, .cons (.recover hr c) .nil⟩
    | interruption => exact ⟨hpass, .nil⟩
  | finalize hn =>
    obtain ⟨htoken, hnew⟩ := World.newToken_alike hw
    refine ⟨⟨.finalizing hm hs o ?_, hnew, rfl⟩, .nil⟩
    exact .next ⟨hm.env, htoken, rfl⟩ (.plain hn .nil)
  | restore env =>
    have hm' : Interpreter.Paired { m with env } { m' with env } := ⟨rfl, hm.token, hm.suppressed⟩
    exact ⟨⟨.popping hm' hs o, hw, rfl⟩, .nil⟩

/-- An interpreter that pops a frame keeps up with another one that does. It pops the continuations that hand their value back,
and counts an instruction and looks at its token after each of them. -/
theorem Frame.StackRegroups.pop {fs fs' : List Frame} (hs : Frame.StackRegroups idle fs fs') {o : Outcome} {L called : List Call}
    (hf : m.frames.frames = fs) (hf' : m'.frames.frames = fs') (hm : m.Paired m') (hw : w.Alike w')
    (ho : (Process.popping m o).handsOnOpen idle w = true) (hL : Call.Regrouped idle L called) :
    Process.KeepsUp idle (called ++ (Process.popping m' o).calls w') (m'.pop o w').process (m'.pop o w').world (m.pop o w)
      (L ++ (Process.popping m o).calls w) := by
  induction hs generalizing m m' w' called with
  | nil =>
    rw [Interpreter.pop_nil hf, Interpreter.pop_nil hf']
    have hexit : m.exit o = m'.exit o := by cases o <;> simp only [Interpreter.exit, hm.suppressed]
    rw [hexit]
    refine .now ⟨.settled _, hw, rfl⟩ (hL.append ?_)
    rw [Process.calls, Process.calls, hf, hf']
    exact .nil
  | cons hf₀ hs _ =>
    obtain ⟨m, rfl, rfl⟩ := Interpreter.exists_push hf
    obtain ⟨m', rfl, rfl⟩ := Interpreter.exists_push hf'
    have hm' : m.Paired m' := ⟨hm.env, hm.token, hm.suppressed⟩
    obtain ⟨hturn, hcalls⟩ := hf₀.pop hm' hs o hw
    exact .after hturn (Interpreter.pop_busy _ o w') (hL.append hcalls)
  | @assoc f f' g g' fs fs' hfs hgs hs _ =>
    obtain ⟨m, rfl, rfl⟩ := Interpreter.exists_push hf
    obtain ⟨m₁, rfl, hf₁⟩ := Interpreter.exists_push hf'
    obtain ⟨m', rfl, rfl⟩ := Interpreter.exists_push hf₁
    have hm' : m.Paired m' := ⟨hm.env, hm.token, hm.suppressed⟩
    rcases o.value_or_passed with ⟨p, rfl⟩ | hpass
    · rw [Interpreter.pop_push, Interpreter.pop_push]
      exact .after (hm'.goOn_joint hfs hgs hs p hw) rfl (hL.append (.cons (.joint hfs g p) .nil))
    · rw [Interpreter.pop_passed hpass, Interpreter.pop_passed hpass, Process.calls_popping, Process.calls_popping,
        Frame.calls_passed hpass, Frame.calls_passed hpass, List.append_nil, List.append_nil]
      exact .pass hpass (.now ⟨.popping hm' hs o, hw, rfl⟩ hL)
  | handed hi hs ih =>
    obtain ⟨m', rfl, rfl⟩ := Interpreter.exists_push hf'
    have hm' : m.Paired m' := ⟨hm.env, hm.token, hm.suppressed⟩
    rcases o.value_or_passed with ⟨p, rfl⟩ | hpass
    · have hopen : w'.isInterrupted m'.token = false := by
        rw [hm'.isInterrupted hw]
        simpa [Process.handsOnOpen, hi] using ho
      have hgiven : Call.Regrouped idle L ((called ++ [.apply Node.handBack p]) ++ []) := by
        simpa using hL.append (.handed hi p .nil)
      rw [Interpreter.pop_push]
      exact .take (n := .succeed p) hopen (.turn rfl (Interpreter.pop_busy _ _ _) (ih hf rfl hm'.tick hw ho hgiven))
    · rw [Interpreter.pop_passed hpass, Process.calls_popping, Frame.calls_passed hpass, List.append_nil]
      exact .turn rfl (Interpreter.pop_busy _ _ _) (ih hf rfl hm' hw ho hL)

/-! ## Taking nodes -/

/-- A node whose value a chain takes at once. -/
def Node.immediate : Node → Bool
  | .succeed _ | .succeedLazy _ => true
  | _ => false

/-- A node whose value a chain takes at once is not regrouped. -/
theorem Node.Regroups.immediate_of {n n' : Node} (h : n.Regroups idle n') (hn' : n'.immediate = true) : n = n' := by
  cases h with
  | succeed | succeedLazy => rfl
  | _ => exact absurd hn' Bool.false_ne_true

/-- A chain whose inner node is none of these is taken with a frame. -/
theorem Interpreter.take_chain_pushed (m : Interpreter) {n : Node} (hn : n.immediate = false) (k : Payload → Action Node)
    (w : World) :
    m.take (.chain n k) w =
      { process := .next (m.push (.apply k)) n, world := w.record (.step (Node.chain n k).kind m.frames.height) } := by
  cases n with
  | succeed | succeedLazy => exact absurd hn Bool.true_eq_false.mp
  | _ => rfl

/-- Nothing is called when such a chain is taken. -/
theorem Interpreter.takeCalls_chain (m : Interpreter) {n : Node} (hn : n.immediate = false) (k : Payload → Action Node)
    (w : World) : m.takeCalls (.chain n k) w = [] := by
  cases n with
  | succeed | succeedLazy => exact absurd hn Bool.true_eq_false.mp
  | _ => rfl

/-- A lazy success is evaluated when it is taken. -/
theorem Interpreter.take_lazy (m : Interpreter) (thunk : Action (Except (Cause Value) Payload)) (w : World) :
    m.take (.succeedLazy thunk) w =
      { process := .next m (.leaf (evaluate thunk (w.record (.step (Node.succeedLazy thunk).kind m.frames.height))).1)
        world := (evaluate thunk (w.record (.step (Node.succeedLazy thunk).kind m.frames.height))).2 } := by
  simp only [take]
  rcases evaluate thunk (w.record (.step (Node.succeedLazy thunk).kind m.frames.height)) with ⟨_ | _, v⟩ <;> rfl

/-- Host futures are begun alike. -/
theorem Interpreter.Paired.await (hm : m.Paired m') (hs : Frame.StackRegroups idle m.frames.frames m'.frames.frames)
    (factory : OperationId → Action Future) (onReject : Value → Action (Cause Value)) (hw : w.Alike w') :
    (m.await factory onReject w).Regroups idle (m'.await factory onReject w') ∧
      (Node.liftPromise factory onReject).calls m.env m.token w =
        (Node.liftPromise factory onReject).calls m'.env m'.token w' := by
  obtain ⟨hop, hnew⟩ := World.newOperation_alike hw
  have hreact := World.react_alike hnew m.token (.stop w.newOperation.1)
  simp only [Interpreter.await, Node.calls, ← hm.token, ← hop]
  rcases hx : w.newOperation.2.react m.token (.stop w.newOperation.1) with ⟨_ | stopper, v⟩ <;>
    rcases hx' : w'.newOperation.2.react m.token (.stop w.newOperation.1) with ⟨_ | stopper', v'⟩ <;> rw [hx, hx'] at hreact
  · exact ⟨⟨.popping hm hs .interruption, hreact.2, rfl⟩, rfl⟩
  · exact absurd hreact.1.symm (Option.some_ne_none _)
  · exact absurd hreact.1 (Option.some_ne_none _)
  · obtain ⟨hstopper, hv⟩ := hreact
    obtain rfl := Option.some.inj hstopper
    obtain ⟨hf, hv⟩ := (factory w.newOperation.1).run_alike hv
    refine ⟨?_, rfl⟩
    dsimp only
    rcases hy : (factory w.newOperation.1).run v with ⟨e | future, u⟩ <;>
      rcases hy' : (factory w.newOperation.1).run v' with ⟨e' | future', u'⟩ <;> rw [hy, hy'] at hf hv
    · obtain rfl := Except.error.inj hf
      exact ⟨.next hm (.plain (.fail _) hs), World.unsubscribe_alike hv stopper, rfl⟩
    · cases hf
    · cases hf
    · obtain rfl := Except.ok.inj hf
      exact ⟨.awaiting hm hs _, hv, rfl⟩

/-- Groups are started alike. -/
theorem Interpreter.Paired.fanOut (hm : m.Paired m') (hs : Frame.StackRegroups idle m.frames.frames m'.frames.frames)
    {ns ns' : List Node} (h : List.Forall₂ (Node.Regroups idle) ns ns') (hw : w.Alike w') :
    (m.fanOut ns w).Regroups idle (m'.fanOut ns' w') := by
  obtain ⟨htoken, hnew⟩ := World.newToken_alike hw
  obtain ⟨hlink, hreact⟩ := World.react_alike hnew m.token (.forward w.newToken.1)
  simp only [Interpreter.fanOut, ← hm.token, ← htoken, ← hlink]
  refine ⟨.joining hm hs _ .nil ?_, hreact, rfl⟩
  rw [List.forall₂_map_left_iff, List.forall₂_map_right_iff]
  exact h.imp fun n n' hn => .running (.next ⟨hm.env, rfl, rfl⟩ (.plain hn .nil))

/-- A chain takes the value of a computation at once. -/
theorem Interpreter.take_chain_lazy_ok {thunk : Action (Except (Cause Value) Payload)} {p : Payload} {v : World}
    (h : evaluate thunk (w.record (.step "chain" m.frames.height)) = (.ok p, v)) (k : Payload → Action Node) :
    m.take (.chain (.succeedLazy thunk) k) w = m.goOn (k p) v ∧
      m.takeCalls (.chain (.succeedLazy thunk) k) w = [.thunk thunk, .apply k p] := by
  simp only [take, takeCalls, Node.kind, Node.calls, h, and_self]

/-- A chain whose lazy success fails does not call its continuation. -/
theorem Interpreter.take_chain_lazy_error {thunk : Action (Except (Cause Value) Payload)} {c : Cause Value} {v : World}
    (h : evaluate thunk (w.record (.step "chain" m.frames.height)) = (.error c, v)) (k : Payload → Action Node) :
    m.take (.chain (.succeedLazy thunk) k) w = { process := .next m (.fail c), world := v } ∧
      m.takeCalls (.chain (.succeedLazy thunk) k) w = [.thunk thunk] := by
  simp only [take, takeCalls, Node.kind, Node.calls, h, and_self]

end

section

variable {L M : List Call} {t : Turn} {fs : List Frame}

/-- Taking a success, which may be handed back a few times. -/
theorem Process.KeepsUp.succeed {p : Payload} {n' : Node} (h : (Node.succeed p).Regroups idle n') {m m' : Interpreter}
    {w w' : World} {called : List Call} (hm : m.Paired m') (hs : Frame.StackRegroups idle fs m'.frames.frames) (hw : w.Alike w')
    (ho : w.isInterrupted m.token = false) (hM : Call.Regrouped idle M called)
    (hgo : ∀ (m' : Interpreter) (w' : World) (called : List Call), m.Paired m' →
      Frame.StackRegroups idle fs m'.frames.frames → w.Alike w' → Call.Regrouped idle M called →
        Process.KeepsUp idle called (.popping m' (.value p)) w' t L) :
    Process.KeepsUp idle called (.next m' n') w' t L := by
  have ho' := (hm.isInterrupted hw).trans ho
  cases h with
  | succeed => exact .take ho' (hgo m'.tick _ _ hm.tick hs hw (by simpa [Interpreter.takeCalls, Node.calls] using hM))
  | handed hi h =>
    cases h with
    | succeed =>
      have hgiven : Call.Regrouped idle M ((called ++ [.apply Node.handBack p]) ++ []) := by
        simpa using hM.append (.handed hi p .nil)
      exact .take ho' (.take (n := .succeed p) (m := m'.tick) ho' (hgo m'.tick.tick _ _ hm.tick.tick hs hw hgiven))
    | handed _ h' =>
      refine .take ho' ?_
      rw [Interpreter.take_chain_pushed _ rfl, Interpreter.takeCalls_chain _ rfl, List.append_nil]
      exact Process.KeepsUp.succeed (.handed hi h') (hm.tick.push_right _) (.handed hi hs) hw ho hM hgo

/-- Taking a lazy success, which may be handed back a few times. -/
theorem Process.KeepsUp.lazy {thunk : Action (Except (Cause Value) Payload)} {n' : Node}
    (h : (Node.succeedLazy thunk).Regroups idle n') {m m' : Interpreter} {w w' : World} {called : List Call} (hm : m.Paired m')
    (hs : Frame.StackRegroups idle fs m'.frames.frames) (hw : w.Alike w') (ho : w.isInterrupted m.token = false)
    (hM : Call.Regrouped idle M called)
    (hgo : ∀ (m' : Interpreter) (w' : World) (called : List Call), m.Paired m' →
      Frame.StackRegroups idle fs m'.frames.frames → (evaluate thunk w).2.Alike w' →
        Call.Regrouped idle (M ++ [.thunk thunk]) called →
          Process.KeepsUp idle called (.next m' (.leaf (evaluate thunk w).1)) w' t L) :
    Process.KeepsUp idle called (.next m' n') w' t L := by
  have ho' := (hm.isInterrupted hw).trans ho
  have hthunk := hM.append (.refl [.thunk thunk])
  cases h with
  | succeedLazy =>
    refine .take ho' ?_
    obtain ⟨hr, hv⟩ := evaluate_alike (v := w'.record (.step (Node.succeedLazy thunk).kind m'.tick.frames.height)) hw thunk
    rw [Interpreter.take_lazy, ← hr]
    exact hgo m'.tick _ _ hm.tick hs hv hthunk
  | handed hi h =>
    cases h with
    | succeedLazy =>
      refine .take ho' ?_
      obtain ⟨hr, hv⟩ := evaluate_alike (v := w'.record (.step "chain" m'.tick.frames.height)) hw thunk
      rcases hx : evaluate thunk (w'.record (.step "chain" m'.tick.frames.height)) with ⟨c | p, v⟩ <;> rw [hx] at hr hv
      · obtain ⟨hturn, hcalls⟩ := Interpreter.take_chain_lazy_error hx Node.handBack
        rw [hturn, hcalls]
        have := hgo m'.tick v _ hm.tick hs hv hthunk
        rwa [hr] at this
      · obtain ⟨hturn, hcalls⟩ := Interpreter.take_chain_lazy_ok hx Node.handBack
        have hgiven : Call.Regrouped idle (M ++ [.thunk thunk]) (called ++ [.thunk thunk, .apply Node.handBack p]) := by
          simpa using hthunk.append (.handed hi p .nil)
        rw [hturn, hcalls]
        have := hgo m'.tick v _ hm.tick hs hv hgiven
        rwa [hr] at this
    | handed _ h' =>
      refine .take ho' ?_
      rw [Interpreter.take_chain_pushed _ rfl, Interpreter.takeCalls_chain _ rfl, List.append_nil]
      exact Process.KeepsUp.lazy (.handed hi h') (hm.tick.push_right _) (.handed hi hs) hw ho hM hgo

/-- A failure does not get to the continuation that is on top of the frames. -/
theorem Frame.StackRegroups.failing {k k' : Payload → Action Node} {fs fs' : List Frame}
    (hs : Frame.StackRegroups idle (.apply k :: fs) (.apply k' :: fs')) (c : Cause Value) :
    (Node.fail c).RegroupsOver idle fs (.fail c) fs' := by
  cases hs with
  | cons _ hs => exact .plain (.fail c) hs
  | assoc _ hg hs => exact .failing c (.cons (.apply hg) hs)
  | handed _ hs => exact .failing c hs

variable {m m' : Interpreter} {w w' : World} {called : List Call}

/-- A process that hands on a value in time has not been tripped. -/
theorem Process.handsOnOpen_value {m : Interpreter} {w : World} (ho : w.isInterrupted m.token = false) (p : Payload) :
    (Process.popping m (.value p)).handsOnOpen idle w = true := by
  rw [handsOnOpen, ho, Bool.and_false]
  rfl

/-- The value of a computation that is handed on has been come to while nobody has tripped the token. -/
theorem Process.untripped_of_handsOnOpen {thunk : Action (Except (Cause Value) Payload)} {k : Payload → Action Node}
    {r : Except (Cause Value) Payload} {v : World} (ho : w.isInterrupted m.token = false)
    (hopen : (Process.counted m (.chain (.succeedLazy thunk) k)).handsOnOpen idle w = true)
    (hx : evaluate thunk (w.record (.step "chain" m.frames.height)) = (r, v)) : v.isInterrupted m.token = false := by
  have halike := (evaluate_alike (World.Alike.of_record w (.step "chain" m.frames.height)) thunk).2
  rw [hx] at halike
  rw [halike.isInterrupted]
  simpa [handsOnOpen, ho] using hopen

/-- Frames are popped with a value, the topmost of which is a continuation. -/
theorem Process.KeepsUp.popping {k : Payload → Action Node}
    (hs : Frame.StackRegroups idle (.apply k :: m.frames.frames) m'.frames.frames) (hm : m.Paired m') (hw : w.Alike w')
    (ho : w.isInterrupted m.token = false) (hM : Call.Regrouped idle M called) (p : Payload) :
    Process.KeepsUp idle called (.popping m' (.value p)) w' (m.goOn (k p) w) (M ++ [.apply k p]) := by
  have hm' : (m.push (.apply k)).Paired m' := ⟨hm.env, hm.token, hm.suppressed⟩
  have hpop := hs.pop (by rfl) (by rfl) hm' hw (Process.handsOnOpen_value (m := m.push (.apply k)) ho p) hM
  rw [Interpreter.pop_push] at hpop
  exact .turn rfl (Interpreter.pop_busy _ _ _) hpop

/-- A value is handed to the continuation on top of the frames. -/
theorem Process.KeepsUp.handOver {k k' : Payload → Action Node}
    (hs : Frame.StackRegroups idle (.apply k :: m.frames.frames) (.apply k' :: m'.frames.frames)) (hm : m.Paired m')
    (hw : w.Alike w') (ho : w.isInterrupted m.token = false) (hM : Call.Regrouped idle M called) (p : Payload) :
    Process.KeepsUp idle (called ++ [.apply k' p]) (m'.goOn (k' p) w').process (m'.goOn (k' p) w').world (m.goOn (k p) w)
      (M ++ [.apply k p]) := by
  have hpop := hs.pop (by rfl) (by rfl) (hm.push (.apply k) (.apply k')) hw
    (Process.handsOnOpen_value (m := m.push (.apply k)) ho p) hM
  rwa [Interpreter.pop_push, Interpreter.pop_push] at hpop

/-- A chain is taken whose continuation is a frame of the other interpreter already. -/
theorem Process.KeepsUp.chain_pushed {n n' : Node} {k : Payload → Action Node} (hn : n.Regroups idle n')
    (hs : Frame.StackRegroups idle (.apply k :: m.frames.frames) m'.frames.frames) (hm : m.Paired m') (hw : w.Alike w')
    (ho : w.isInterrupted m.token = false) (hopen : (Process.counted m (.chain n k)).handsOnOpen idle w = true)
    (hM : Call.Regrouped idle M called) :
    Process.KeepsUp idle called (.next m' n') w' (m.take (.chain n k) w) (M ++ m.takeCalls (.chain n k) w) := by
  have hnote : (w.record (.step "chain" m.frames.height)).Alike w' := hw
  cases hn' : n.immediate with
  | false =>
    rw [m.take_chain_pushed hn', m.takeCalls_chain hn', List.append_nil]
    exact .now ⟨.next ⟨hm.env, hm.token, hm.suppressed⟩ (.plain hn hs), hw, rfl⟩ hM
  | true =>
    cases n with
    | succeed p => exact .succeed hn hm hs hnote ho hM fun m' w' called hm hs hw hM => .popping hs hm hw ho hM p
    | succeedLazy thunk =>
      refine .lazy hn hm hs hnote ho hM fun m' w' called hm hs hw hM => ?_
      rcases hx : evaluate thunk (w.record (.step "chain" m.frames.height)) with ⟨c | p, v⟩ <;> rw [hx] at hw
      · obtain ⟨hturn, hcalls⟩ := Interpreter.take_chain_lazy_error hx k
        rw [hturn, hcalls]
        exact .now ⟨.next hm (.failing c hs), hw, rfl⟩ hM
      · obtain ⟨hturn, hcalls⟩ := Interpreter.take_chain_lazy_ok hx k
        have hv := Process.untripped_of_handsOnOpen ho hopen hx
        have hlist : M ++ [Call.thunk thunk, .apply k p] = (M ++ [.thunk thunk]) ++ [.apply k p] := by simp
        rw [hturn, hcalls, hlist]
        exact .succeed (.succeed p) hm hs hw hv hM fun m' w' called hm hs hw hM => .popping hs hm hw hv hM p
    | _ => exact absurd hn' Bool.false_ne_true

/-- A chain is taken by both. -/
theorem Process.KeepsUp.chain {n n' : Node} {k k' : Payload → Action Node} (hn : n.Regroups idle n')
    (hs : Frame.StackRegroups idle (.apply k :: m.frames.frames) (.apply k' :: m'.frames.frames)) (hm : m.Paired m')
    (hw : w.Alike w') (ho : w.isInterrupted m.token = false)
    (hopen : (Process.counted m (.chain n k)).handsOnOpen idle w = true) (hM : Call.Regrouped idle M called) :
    Process.KeepsUp idle called (.next m' (.chain n' k')) w' (m.take (.chain n k) w) (M ++ m.takeCalls (.chain n k) w) := by
  have ho' := (hm.isInterrupted hw).trans ho
  have hnote : (w.record (.step "chain" m.frames.height)).Alike (w'.record (.step "chain" m'.tick.frames.height)) := hw
  refine .take ho' ?_
  cases hn' : n'.immediate with
  | false =>
    rw [Interpreter.take_chain_pushed _ hn', Interpreter.takeCalls_chain _ hn', List.append_nil]
    exact .chain_pushed hn hs (hm.tick.push_right _) hw ho hopen hM
  | true =>
    obtain rfl := hn.immediate_of hn'
    have hs' : Frame.StackRegroups idle (.apply k :: m.frames.frames) (.apply k' :: m'.tick.frames.frames) := hs
    cases n with
    | succeed p => exact .handOver hs' hm.tick hnote ho hM p
    | succeedLazy thunk =>
      obtain ⟨hr, hv⟩ := evaluate_alike hnote thunk
      rcases hx : evaluate thunk (w.record (.step "chain" m.frames.height)) with ⟨c | p, v⟩ <;>
        rcases hx' : evaluate thunk (w'.record (.step "chain" m'.tick.frames.height)) with ⟨c' | p', v'⟩ <;>
          rw [hx, hx'] at hr hv
      · obtain rfl := Except.error.inj hr
        obtain ⟨hturn, hcalls⟩ := Interpreter.take_chain_lazy_error hx k
        obtain ⟨hturn', hcalls'⟩ := Interpreter.take_chain_lazy_error hx' k'
        rw [hturn, hcalls, hturn', hcalls']
        exact .now ⟨.next hm.tick (hs.failing c), hv, rfl⟩ (hM.append (.refl _))
      · cases hr
      · cases hr
      · obtain rfl := Except.ok.inj hr
        obtain ⟨hturn, hcalls⟩ := Interpreter.take_chain_lazy_ok hx k
        obtain ⟨hturn', hcalls'⟩ := Interpreter.take_chain_lazy_ok hx' k'
        have hopen' := Process.untripped_of_handsOnOpen ho hopen hx
        have hgoes := Process.KeepsUp.handOver hs' hm.tick hv hopen' (hM.append (.refl [.thunk thunk])) p
        rw [List.append_assoc, List.append_assoc] at hgoes
        rw [hturn, hcalls, hturn', hcalls']
        exact hgoes
    | _ => exact absurd hn' Bool.false_ne_true

/-- Frames are popped with something that the continuation on top of them lets pass. -/
theorem Process.KeepsUp.passed {k : Payload → Action Node} {o : Outcome}
    (hs : Frame.StackRegroups idle (.apply k :: m.frames.frames) m'.frames.frames) (hm : m.Paired m') (hw : w.Alike w')
    (hpass : ∀ p, o ≠ .value p) (hM : Call.Regrouped idle M called) :
    Process.KeepsUp idle called (.popping m' o) w' { process := .popping m o, world := w } M := by
  have hm' : (m.push (.apply k)).Paired m' := ⟨hm.env, hm.token, hm.suppressed⟩
  have hopen : (Process.popping (m.push (.apply k)) o).handsOnOpen idle w = true := by
    cases o with
    | value p => exact absurd rfl (hpass p)
    | failure c => rfl
    | interruption => rfl
  have hpop := hs.pop (by rfl) (by rfl) hm' hw hopen hM
  rw [Interpreter.pop_passed hpass, Process.calls_popping, Frame.calls_passed hpass, List.append_nil] at hpop
  exact .turn rfl (Interpreter.pop_busy _ _ _) hpop

/-- Nodes that are neither chains nor handed back are taken alike. -/
theorem Process.KeepsUp.taken {n n' : Node} (ht : (m.take n w).Regroups idle (m'.tick.take n' w')) (hm : m.Paired m')
    (hw : w.Alike w') (ho : w.isInterrupted m.token = false) (hM : Call.Regrouped idle M called)
    (hc : Call.Regrouped idle (m.takeCalls n w) (m'.tick.takeCalls n' w')) :
    Process.KeepsUp idle called (.next m' n') w' (m.take n w) (M ++ m.takeCalls n w) :=
  .take ((hm.isInterrupted hw).trans ho) (.after ht (Interpreter.take_busy _ _ _) (hM.append hc))

/-- An interpreter takes a node as the other one does, unless it first has to take a chain that hands the value of the node
back. -/
theorem Node.Regroups.take_or_handed {n n' : Node} (h : n.Regroups idle n')
    (hs : Frame.StackRegroups idle m.frames.frames m'.frames.frames) (hm : m.Paired m') (hw : w.Alike w')
    (ho : w.isInterrupted m.token = false) (hopen : (Process.counted m n).handsOnOpen idle w = true)
    (hM : Call.Regrouped idle M called) :
    Process.KeepsUp idle called (.next m' n') w' (m.take n w) (M ++ m.takeCalls n w) ∨
      ∃ x, idle = true ∧ n' = .chain x Node.handBack ∧ x.immediate = false ∧ n.Regroups idle x := by
  have ho' := (hm.isInterrupted hw).trans ho
  have hnote : (w.record (.step n.kind m.frames.height)).Alike w' := hw
  have hnote' : (w.record (.step n.kind m.frames.height)).Alike (w'.record (.step n'.kind m'.tick.frames.height)) := hw
  have hm' := hm.tick
  have hs' : Frame.StackRegroups idle m.frames.frames m'.tick.frames.frames := hs
  cases h with
  | succeed p => exact .inl (.taken ⟨.popping hm' hs' _, hw, rfl⟩ hm hw ho hM .nil)
  | succeedLazy thunk =>
    refine .inl (.lazy (.succeedLazy thunk) hm hs hnote ho hM fun m' w' called hm hs hw hM => ?_)
    rw [Interpreter.take_lazy]
    exact .now ⟨.next hm (.plain (.refl _) hs), hw, rfl⟩ hM
  | fail c => exact .inl (.taken ⟨.popping hm' hs' _, hw, rfl⟩ hm hw ho hM .nil)
  | interrupt =>
    have htripped := World.interrupt_alike m'.tick.token (World.record_alike hnote' .selfInterrupted)
    have hself : (m.take .interrupt w).world.Alike (m'.tick.take .interrupt w').world := by
      simp only [Interpreter.take, hm'.token]
      exact htripped
    exact .inl (.taken ⟨.popping hm' hs' .interruption, hself, rfl⟩ hm hw ho hM .nil)
  | @asks read read' h =>
    have hturn : m'.tick.take (.asks read') w' = m'.tick.goOn (read' m.env) (w'.record (.step "asks" m'.tick.frames.height)) := by
      rw [hm'.env]
      rfl
    have hcalls : m'.tick.takeCalls (.asks read') w' = [.read read' m.env] := by
      rw [hm'.env]
      rfl
    refine .inl (.taken ?_ hm hw ho hM ?_)
    · rw [hturn]
      exact hm'.goOn_plain hs' (h m.env) hw
    · rw [hcalls]
      exact .cons (.read h m.env) .nil
  | give h env =>
    have hrestore : Frame.Regroups idle (.restore m.env) (.restore m'.tick.env) := by
      rw [hm'.env]
      exact .restore _
    have hgiven : Interpreter.Paired { m.push (.restore m.env) with env } { m'.tick.push (.restore m'.tick.env) with env } :=
      ⟨rfl, hm'.token, hm'.suppressed⟩
    exact .inl (.taken ⟨.next hgiven (.plain h (.cons hrestore hs')), hw, rfl⟩ hm hw ho hM .nil)
  | all h => exact .inl (.taken (hm'.fanOut hs' h hw) hm hw ho hM .nil)
  | defer h => exact .inl (.taken (hm'.goOn_plain hs' h hw) hm hw ho hM (.cons (.factory h) .nil))
  | liftPromise factory onReject =>
    obtain ⟨hturn, hcalls⟩ := hm'.await hs' factory onReject hnote'
    refine .inl (.taken hturn hm hw ho hM ?_)
    rw [Interpreter.takeCalls, hcalls]
    exact .refl _
  | chain h hk => exact .inl (.chain h (.cons (.apply hk) hs) hm hw ho hopen hM)
  | matchCause h hr hk =>
    exact .inl (.taken ⟨.next (hm'.push _ _) (.plain h (.cons (.fold hr hk) hs')), hw, rfl⟩ hm hw ho hM .nil)
  | ensuring h hf =>
    exact .inl (.taken ⟨.next (hm'.push _ _) (.plain h (.cons (.finalize hf) hs')), hw, rfl⟩ hm hw ho hM .nil)
  | assoc h hf hg =>
    refine .inl (.take ho' ?_)
    rw [Interpreter.take_chain_pushed _ rfl, Interpreter.takeCalls_chain _ rfl, List.append_nil]
    exact .chain h (.assoc hf hg hs) (hm.tick.push_right _) hw ho hopen hM
  | applied p h => exact .inl (.taken (hm'.goOn_plain hs' h hw) hm hw ho hM (.cons (.applied p h) .nil))
  | @handed _ x hi h =>
    cases hx : x.immediate with
    | false => exact .inr ⟨x, hi, rfl, hx, h⟩
    | true =>
      obtain rfl := h.immediate_of hx
      refine .inl ?_
      cases n with
      | succeed p =>
        exact .succeed (.handed hi h) hm hs hnote ho hM fun m' w' called hm hs hw hM =>
          .now ⟨.popping hm hs _, hw, rfl⟩ (by simpa [Interpreter.takeCalls, Node.calls] using hM)
      | succeedLazy thunk =>
        refine .lazy (.handed hi h) hm hs hnote ho hM fun m' w' called hm hs hw hM => ?_
        rw [Interpreter.take_lazy]
        exact .now ⟨.next hm (.plain (.refl _) hs), hw, rfl⟩ hM
      | _ => exact absurd hx Bool.false_ne_true

/-- An interpreter that takes a node keeps up with another one that does. It takes chains one at a time, and counts an instruction
and looks at its token before each of them. -/
theorem Node.Regroups.take {n n' : Node} {m m' : Interpreter} {w w' : World} {called : List Call} (h : n.Regroups idle n')
    (hs : Frame.StackRegroups idle m.frames.frames m'.frames.frames) (hm : m.Paired m') (hw : w.Alike w')
    (ho : w.isInterrupted m.token = false) (hopen : (Process.counted m n).handsOnOpen idle w = true)
    (hM : Call.Regrouped idle M called) :
    Process.KeepsUp idle called (.next m' n') w' (m.take n w) (M ++ m.takeCalls n w) := by
  rcases h.take_or_handed hs hm hw ho hopen hM with hdone | ⟨x, hi, rfl, hx, h⟩
  · exact hdone
  · refine .take ((hm.isInterrupted hw).trans ho) ?_
    rw [Interpreter.take_chain_pushed _ hx, Interpreter.takeCalls_chain _ hx, List.append_nil]
    exact Node.Regroups.take h (.handed hi hs) (hm.tick.push_right _) hw ho hopen hM
termination_by sizeOf n'

/-- An interpreter keeps up with one that has counted an instruction. -/
theorem Node.RegroupsOver.turn {n n' : Node} (h : n.RegroupsOver idle m.frames.frames n' m'.frames.frames) (hm : m.Paired m')
    (hw : w.Alike w') (hopen : (Process.counted m n).handsOnOpen idle w = true) :
    Process.KeepsUp idle [] (.next m' n') w' ((Process.counted m n).turn w) ((Process.counted m n).calls w) := by
  cases ho : w.isInterrupted m.token with
  | true =>
    have hturn : (Process.counted m n).turn w = m.interrupted w := by rw [Process.turn, ho, if_pos rfl]
    have hcalls : (Process.counted m n).calls w = [] := by rw [Process.calls, ho, if_pos rfl]
    have hpass : ∀ p, Outcome.interruption ≠ .value p := fun _ => Outcome.noConfusion
    rw [hturn, hcalls]
    refine .tripped ((hm.isInterrupted hw).trans ho) ?_
    cases h with
    | plain _ hs => exact .now ⟨.popping hm.tick hs .interruption, hw, rfl⟩ .nil
    | pushed _ hs => exact .passed hs hm.tick hw hpass .nil
    | failing _ hs => exact .passed hs hm.tick hw hpass .nil
  | false =>
    rw [Process.turn_counted ho, Process.calls_counted ho]
    cases h with
    | plain hn hs => exact hn.take hs hm hw ho hopen .nil
    | pushed hn hs => exact .chain_pushed hn hs hm hw ho hopen .nil
    | failing c hs =>
      refine .take ((hm.isInterrupted hw).trans ho) ?_
      exact .passed hs hm.tick hw (fun _ => Outcome.noConfusion) .nil

/-! ## Finalizers, host futures and groups -/

/-- Interpreters go on alike after a finalizer. -/
theorem Interpreter.Paired.finalized (hm : m.Paired m') (hs : Frame.StackRegroups idle m.frames.frames m'.frames.frames)
    (o : Outcome) (e : Exit Value Payload) (hw : w.Alike w') : (m.finalized o e w).Regroups idle (m'.finalized o e w') := by
  cases e with
  | success p => exact ⟨.popping hm hs o, hw, rfl⟩
  | failure c =>
    cases o with
    | value p => exact ⟨.next hm (.plain (.fail c) hs), hw, rfl⟩
    | failure c' => exact ⟨.popping hm hs _, hw, rfl⟩
    | interruption =>
      have hm' : Interpreter.Paired { m with suppressed := m.suppressed.andThen c }
          { m' with suppressed := m'.suppressed.andThen c } := ⟨hm.env, hm.token, by rw [hm.suppressed]⟩
      exact ⟨.popping hm' hs .interruption, hw, rfl⟩

/-- A future that is awaited is polled alike. -/
theorem Interpreter.Paired.pollAwaited (hm : m.Paired m') (hs : Frame.StackRegroups idle m.frames.frames m'.frames.frames)
    (a : Awaited) (hw : w.Alike w') :
    (m.pollAwaited a w).Regroups idle (m'.pollAwaited a w') ∧ a.calls w = a.calls w' := by
  have hleft : ∀ {v v' : World}, v.Alike v' →
      ((v.unsubscribe a.stopper).forget a.op).Alike ((v'.unsubscribe a.stopper).forget a.op) := fun hv =>
    World.forget_alike (World.unsubscribe_alike hv a.stopper) a.op
  obtain ⟨hr, hpoll⟩ := a.future.poll_alike a.op (World.attend_alike hw a.op)
  refine ⟨?_, by simp only [Awaited.calls, hw.isFired, ← hr]⟩
  simp only [Interpreter.pollAwaited, hw.isFired]
  cases hfired : w.isFired a.op with
  | true => exact ⟨.popping hm hs .interruption, hleft hw, rfl⟩
  | false =>
    rw [if_neg Bool.false_ne_true, if_neg Bool.false_ne_true]
    rcases hx : a.future.poll a.op (w.attend a.op) with ⟨rest | ⟨x | p⟩ | p, v⟩ <;>
      rcases hx' : a.future.poll a.op (w'.attend a.op) with ⟨r', v'⟩ <;> rw [hx, hx'] at hr hpoll <;> subst hr
    · exact ⟨.awaiting hm hs _, hpoll, rfl⟩
    · exact hm.goOn_plain hs (Action.agrees_refl _) (hleft hpoll)
    · exact ⟨.next hm (.plain (.succeed p) hs), hleft hpoll, rfl⟩
    · exact ⟨.next hm (.plain (.fail _) hs), hleft hpoll, rfl⟩

/-- Groups are unlinked alike in worlds that are alike. -/
theorem Group.unlink_alike (g : Group) (hw : w.Alike w') : (g.unlink w).Alike (g.unlink w') := by
  unfold Group.unlink
  split
  · exact World.unsubscribe_alike hw _
  · exact hw

/-- Groups whose branches have come to the same exits go on alike. -/
theorem Interpreter.Paired.joined (hm : m.Paired m') (hs : Frame.StackRegroups idle m.frames.frames m'.frames.frames)
    (g : Group) (exits : List (Exit Value Payload)) (hw : w.Alike w') :
    (m.joined g exits w).Regroups idle (m'.joined g exits w') := by
  have hunlinked := g.unlink_alike hw
  rw [Interpreter.joined_eq, Interpreter.joined_eq, hm.isInterrupted hunlinked]
  cases (g.unlink w).isInterrupted m.token with
  | true => exact ⟨.popping hm hs .interruption, hunlinked, rfl⟩
  | false =>
    cases Verdict.ofExits exits with
    | succeeded values => exact ⟨.next hm (.plain (.succeed _) hs), hunlinked, rfl⟩
    | failed c => exact ⟨.next hm (.plain (.fail c) hs), hunlinked, rfl⟩
    | interrupted =>
      have hself : ((g.unlink w).interrupt m.token).Alike ((g.unlink w').interrupt m'.token) := by
        rw [hm.token]
        exact World.interrupt_alike m'.token hunlinked
      exact ⟨.popping hm hs .interruption, hself, rfl⟩

/-- Rounds of a group end alike in worlds that are alike, whatever their branches are. -/
theorem Group.afterRound_alike (g : Group) (bs bs' : List Branch) (hw : w.Alike w') :
    (g.afterRound bs w).Alike (g.afterRound bs' w') := by
  unfold Group.afterRound
  rw [hw.isInterrupted]
  split
  · exact World.interrupt_alike g.token hw
  · exact hw

/-- Regrouped branches have the same exits. -/
theorem Branch.exits_regroups {bs bs' : List Branch} (h : List.Forall₂ (Branch.Regroups idle) bs bs') :
    bs.filterMap Branch.exit? = bs'.filterMap Branch.exit? := by
  induction h with
  | nil => rfl
  | cons hb _ ih =>
    rw [List.filterMap_cons, List.filterMap_cons, ih]
    cases hb <;> rfl

/-- Rounds of groups end alike. -/
theorem Interpreter.Paired.endRound (hm : m.Paired m') (hs : Frame.StackRegroups idle m.frames.frames m'.frames.frames)
    (g : Group) {bs bs' : List Branch} (hbs : List.Forall₂ (Branch.Regroups idle) bs bs') (hw : w.Alike w') :
    (m.endRound g bs w).Regroups idle (m'.endRound g bs' w') := by
  have hround := g.afterRound_alike bs bs' hw
  rw [Interpreter.endRound_eq, Interpreter.endRound_eq, ← Branch.exits_regroups hbs, ← hbs.length_eq]
  split
  · exact hm.joined hs g _ hround
  · exact ⟨.joining hm hs _ .nil hbs, hround, rfl⟩

/-- An interpreter keeps up with each turn of another one: whatever that one does in the turn, this one gets to in the same poll,
unless it yields before, and it has called the same callbacks then. -/
theorem Process.Regroups.turn (p : Process) {p' : Process} {w w' : World} (h : p.Regroups idle p') (hw : w.Alike w')
    (hx : p.exit? = none) (hy : p.reachesInterval = false) (ho : p.handsOnOpen idle w = true) :
    Process.KeepsUp idle [] p' w' (p.turn w) (p.calls w) := by
  cases h with
  | next hm h =>
    rw [Process.turn_next_of_short hy]
    exact .now ⟨.counted ⟨hm.env, hm.token, hm.suppressed⟩ h, hw, rfl⟩ .nil
  | counted hm h => exact h.turn hm hw ho
  | popping hm hs o => exact .turn rfl (Interpreter.pop_busy _ _ _) (hs.pop rfl rfl hm hw ho .nil)
  | finalizing hm hs o hp =>
    rename_i m m' child child'
    cases hc : child.exit? with
    | some e =>
      obtain rfl := Process.exit?_eq_some hc
      cases hp with
      | settled => exact .single rfl (hm.finalized hs o e hw) .nil
    | none =>
      rw [Process.turn_finalizing m o hc]
      exact (Process.Regroups.turn child hp hw hc hy ho).finalizing hm hs o
  | awaiting hm hs a =>
    obtain ⟨hturn, hcalls⟩ := hm.pollAwaited hs a hw
    refine .single rfl hturn ?_
    rw [Process.calls, hcalls]
    exact .refl _
  | joining hm hs g hseen hrest =>
    cases hrest with
    | nil => exact .single rfl (hm.endRound hs g (List.rel_reverse hseen) hw) .nil
    | cons hb hrest =>
      cases hb with
      | finished e => exact .single rfl ⟨.joining hm hs g (.cons (.finished e) hseen) hrest, hw, rfl⟩ .nil
      | running hp =>
        rename_i q q'
        cases hc : q.exit? with
        | some e =>
          obtain rfl := Process.exit?_eq_some hc
          cases hp with
          | settled => exact .single rfl ⟨.joining hm hs _ (.cons (.finished e) hseen) hrest, hw, rfl⟩ .nil
        | none =>
          rw [Process.turn_running]
          exact (Process.Regroups.turn q hp hw hc hy ho).joining (hp.exit?_eq.symm.trans hc) hm hs g hseen hrest
  | settled e => exact absurd hx (Option.some_ne_none e)

end

end Interruptible
