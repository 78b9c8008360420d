import Interruptible.Proofs.Machine.RegroupedTurns
import Interruptible.Proofs.Machine.PromptGroups

/-!
# The laws of chains on the machine

Effects whose chains are grouped in another way run alike (`regrouped_runs_agree`): `m.chain(f).chain(g)` as
`m.chain(a => f(a).chain(g))` does, a continuation that is applied to a value as the effect that is built when it is its turn, and
`m.chain(succeed)` as `m`, at any place of a larger effect. The two are polled at the same moments, by whoever changes the world
in between, and none of their interpreters reaches the interval at which it yields. What could tell them apart is the look at the
token that a chain more or less brings along: where a value is handed on without one, nobody must have tripped the token. A value
that a finalizer has held up may be handed on under a token that the failure of a sibling has tripped meanwhile, and then handing
it back first is not to be neglected (`handing_back_unequal`).
-/

namespace Interruptible

namespace Process

/-- One poll of a process: the turns that it takes until it waits or has settled. -/
inductive Polled : Process → World → History → Process → World → Prop where
  | settled (e : Exit Value Payload) (w : World) : Polled (.settled e) w [] (.settled e) w
  | waiting {p : Process} {w : World} (hp : p.exit? = none) (hb : (p.turn w).pace = .waiting) :
    Polled p w [(p, w)] (p.turn w).process (p.turn w).world
  | busy {p q : Process} {w v : World} {h : History} (hp : p.exit? = none) (hb : (p.turn w).pace = .busy)
      (rest : Polled (p.turn w).process (p.turn w).world h q v) : Polled p w ((p, w) :: h) q v

/-- A process is polled several times. Before each poll somebody else makes a move. -/
inductive Polls : List (World → World) → Process → World → History → Process → World → Prop where
  | nil (p : Process) (w : World) : Polls [] p w [] p w
  | cons {move : World → World} {moves : List (World → World)} {p q r : Process} {w u v : World} {h h' : History}
      (first : Polled p (move w) h q u) (rest : Polls moves q u h' r v) : Polls (move :: moves) p w (h ++ h') r v

/-- The turns of a poll, up to `n` of them. -/
def pollTurns : Nat → Process → World → History
  | 0, _, _ => []
  | n + 1, p, w =>
    bif p.exit?.isSome then []
    else (p, w) :: bif (p.turn w).pace == .busy then (p.turn w).process.pollTurns n (p.turn w).world else []

/-- A poll that comes to its end is what the turns of the process come to. -/
theorem polled_of_rests {n : Nat} {p : Process} {w : World} (h : p.Rests n w) :
    Polled p w (p.pollTurns n w) (p.poll n w).1 (p.poll n w).2 := by
  induction n generalizing p w with
  | zero => exact h.elim
  | succ n ih =>
    cases hp : p.exit? with
    | some e =>
      obtain rfl := exit?_eq_some hp
      exact .settled e w
    | none =>
      unfold pollTurns
      simp only [hp, Option.isSome_none, cond_false]
      cases hs : (p.turn w).process.exit? with
      | some e =>
        have hsettled := exit?_eq_some hs
        have hb := busy_of_settling hp (by rw [hs]; exact Option.some_ne_none e)
        rw [poll_settled hsettled]
        refine .busy hp hb ?_
        rw [hsettled]
        have hend : ((Process.settled e).pollTurns n (p.turn w).world) = [] := by cases n <;> rfl
        simp only [hb, beq_self_eq_true, cond_true, hend]
        exact .settled e _
      | none =>
        rw [poll_unsettled hs]
        cases hb : (p.turn w).pace with
        | waiting => exact .waiting hp hb
        | busy =>
          have hrest : (p.turn w).process.Rests n (p.turn w).world :=
            (h.resolve_left (fun hx => hx hs)).resolve_left (by rw [hb]; exact Pace.noConfusion)
          exact .busy hp hb (ih hrest)

/-- The turns of several polls, up to `n` of each, and what they come to. -/
def pollAll (n : Nat) : List (World → World) → Process → World → History × Process × World
  | [], p, w => ([], p, w)
  | move :: moves, p, w =>
    let rest := pollAll n moves (p.poll n (move w)).1 (p.poll n (move w)).2
    (p.pollTurns n (move w) ++ rest.1, rest.2)

/-- Whether each of several polls comes to its end within `n` turns. -/
def allRest (n : Nat) : List (World → World) → Process → World → Bool
  | [], _, _ => true
  | move :: moves, p, w => decide (p.Rests n (move w)) && allRest n moves (p.poll n (move w)).1 (p.poll n (move w)).2

theorem polls_of_allRest (n : Nat) (moves : List (World → World)) (p : Process) (w : World) (h : allRest n moves p w = true) :
    Polls moves p w (pollAll n moves p w).1 (pollAll n moves p w).2.1 (pollAll n moves p w).2.2 := by
  induction moves generalizing p w with
  | nil => exact .nil p w
  | cons move moves ih =>
    obtain ⟨hfirst, hrest⟩ := Bool.and_eq_true_iff.mp h
    exact .cons (polled_of_rests (of_decide_eq_true hfirst)) (ih _ _ hrest)

variable {p p' q q' : Process} {w w' v v' : World} {h h' : History} {L : List Call} {t : Turn}

/-- What a process gets to in one poll lies on its way through the poll. -/
theorem Gets.polled (hgets : Gets p w L t) (run : Polled p w h q v) (hy : ∀ y ∈ h, y.1.reachesInterval = false) :
    (t.pace = .busy → ∃ h₁ h₂, h = h₁ ++ h₂ ∧ h₁.calls = L ∧ Polled t.process t.world h₂ q v) ∧
      (t.pace = .waiting → h.calls = L ∧ q = t.process ∧ v = t.world) := by
  induction hgets generalizing h with
  | here p w => exact ⟨fun _ => ⟨[], h, rfl, rfl, run⟩, fun hb => Pace.noConfusion hb⟩
  | @turn p w L t hp hb _ ih =>
    cases run with
    | settled => exact absurd hp (Option.some_ne_none _)
    | waiting _ hb' => exact Pace.noConfusion (hb.symm.trans hb')
    | @busy _ _ _ _ h _ _ rest =>
      obtain ⟨hbusy, hwaiting⟩ := ih rest fun y hmem => hy y (List.mem_cons_of_mem _ hmem)
      refine ⟨fun hb => ?_, fun hb => ?_⟩
      · obtain ⟨h₁, h₂, rfl, hcalls, hrest⟩ := hbusy hb
        exact ⟨(p, w) :: h₁, h₂, rfl, by rw [← hcalls]; rfl, hrest⟩
      · obtain ⟨hcalls, hq, hv⟩ := hwaiting hb
        exact ⟨by rw [← hcalls]; rfl, hq, hv⟩
  | @last p w hp hb =>
    cases run with
    | settled => exact absurd hp (Option.some_ne_none _)
    | waiting => exact ⟨fun hb' => Pace.noConfusion (hb.symm.trans hb'), fun _ => ⟨List.append_nil _, rfl, rfl⟩⟩
    | busy _ hb' => exact Pace.noConfusion (hb'.symm.trans hb)
  | @yields p hinterval w L t =>
    have hnot : (p, w) ∉ h := fun hmem => Bool.false_ne_true ((hy _ hmem).symm.trans hinterval)
    cases run with
    | settled => exact absurd hinterval Bool.false_ne_true
    | waiting => exact absurd List.mem_cons_self hnot
    | busy => exact absurd List.mem_cons_self hnot

end Process

theorem History.calls_append (h h' : History) : (h ++ h').calls = h.calls ++ h'.calls := List.flatMap_append

variable {idle : Bool} {p p' q q' : Process} {w w' v v' : World} {h h' : History}

/-- Polls of two processes that work on trees which are grouped in different ways leave such processes again. -/
theorem Process.Regroups.polled (hr : p.Regroups idle p') (hw : w.Alike w') (run : Process.Polled p w h q v)
    (run' : Process.Polled p' w' h' q' v') (hy : ∀ y ∈ h, y.1.reachesInterval = false)
    (hy' : ∀ y ∈ h', y.1.reachesInterval = false) (ho : ∀ y ∈ h, y.1.handsOnOpen idle y.2 = true) :
    q.Regroups idle q' ∧ v.Alike v' ∧ Call.Regrouped idle h.calls h'.calls := by
  induction run generalizing p' w' h' with
  | settled e w =>
    cases hr with
    | settled =>
      cases run' with
      | settled => exact ⟨.settled e, hw, .nil⟩
      | waiting hp => exact absurd hp (Option.some_ne_none _)
      | busy hp => exact absurd hp (Option.some_ne_none _)
  | @waiting p w hp hb =>
    obtain ⟨t', L', hgets, ht, hL⟩ := hr.turn p hw hp (hy _ List.mem_cons_self) (ho _ List.mem_cons_self)
    obtain ⟨hcalls, rfl, rfl⟩ := (hgets.polled run' hy').2 (ht.pace.symm.trans hb)
    have hone : History.calls [(p, w)] = p.calls w := List.append_nil _
    rw [hcalls, hone]
    exact ⟨ht.process, ht.world, hL⟩
  | @busy p q w v h hp hb rest ih =>
    obtain ⟨t', L', hgets, ht, hL⟩ := hr.turn p hw hp (hy _ List.mem_cons_self) (ho _ List.mem_cons_self)
    obtain ⟨h₁, h₂, rfl, rfl, run'⟩ := (hgets.polled run' hy').1 (ht.pace.symm.trans hb)
    obtain ⟨hq, hv, hcalls⟩ := ih ht.process ht.world run' (fun y hmem => hy y (List.mem_cons_of_mem _ hmem))
      (fun y hmem => hy' y (List.mem_append_right _ hmem)) fun y hmem => ho y (List.mem_cons_of_mem _ hmem)
    refine ⟨hq, hv, ?_⟩
    rw [History.calls_append]
    exact hL.append hcalls

/-- So do polls between which somebody else makes moves, if these do not depend on the notes of the runtime. -/
theorem Process.Regroups.polls {moves : List (World → World)} (hmoves : ∀ f ∈ moves, ∀ a b, World.Alike a b → (f a).Alike (f b))
    (hr : p.Regroups idle p') (hw : w.Alike w') (run : Process.Polls moves p w h q v) (run' : Process.Polls moves p' w' h' q' v')
    (hy : ∀ y ∈ h, y.1.reachesInterval = false) (hy' : ∀ y ∈ h', y.1.reachesInterval = false)
    (ho : ∀ y ∈ h, y.1.handsOnOpen idle y.2 = true) :
    q.Regroups idle q' ∧ v.Alike v' ∧ Call.Regrouped idle h.calls h'.calls := by
  induction run generalizing p' w' h' with
  | nil =>
    cases run' with
    | nil => exact ⟨hr, hw, .nil⟩
  | @cons move moves p q r w u v h₁ h₂ first rest ih =>
    cases run' with
    | @cons _ _ _ q' _ _ u' _ h₁' h₂' first' rest' =>
      obtain ⟨hq, hu, hcalls⟩ := hr.polled (hmoves move List.mem_cons_self _ _ hw) first first'
        (fun y hmem => hy y (List.mem_append_left _ hmem)) (fun y hmem => hy' y (List.mem_append_left _ hmem))
        fun y hmem => ho y (List.mem_append_left _ hmem)
      obtain ⟨hr', hv, hcalls'⟩ := ih (fun f hf => hmoves f (List.mem_cons_of_mem _ hf)) hq hu rest'
        (fun y hmem => hy y (List.mem_append_right _ hmem)) (fun y hmem => hy' y (List.mem_append_right _ hmem))
        fun y hmem => ho y (List.mem_append_right _ hmem)
      refine ⟨hr', hv, ?_⟩
      rw [History.calls_append, History.calls_append]
      exact hcalls.append hcalls'

/-- An effect and another one with its chains grouped in another way, at any places inside it, are run in the same environment
and under the same token, and are polled at the same moments; what the others do in between does not depend on the notes of the
runtime. No interpreter of the two runs reaches the interval at which it yields, whatever that interval is. In the first run,
where a chain takes the value of a computation at once, the computation has not tripped the token; and if the second effect hands back
values that the first one does not, then the first run pops its frames with values only while their tokens have not been tripped.
Then the second run settles in the poll in which the first one does, with the same exit, or has not settled either; both have
called the same callbacks in the same order, apart from those that hand back what they are given, and have left the same world,
up to the notes of the runtime. -/
theorem regrouped_runs_agree {idle : Bool} {n n' : Node} (hn : n.Regroups idle n') {moves : List (World → World)}
    (hmoves : ∀ f ∈ moves, ∀ a b, World.Alike a b → (f a).Alike (f b)) {env : Environment} {t : TokenId} {k k' : Nat}
    {w v v' : World} {h h' : History} {q q' : Process} (run : Process.Polls moves (.start n env t k) w h q v)
    (run' : Process.Polls moves (.start n' env t k') w h' q' v') (hy : ∀ y ∈ h, y.1.reachesInterval = false)
    (hy' : ∀ y ∈ h', y.1.reachesInterval = false) (ho : ∀ y ∈ h, y.1.handsOnOpen idle y.2 = true) :
    q.exit? = q'.exit? ∧ Call.Regrouped idle h.calls h'.calls ∧ v.Alike v' := by
  have hstart : (Process.start n env t k).Regroups idle (.start n' env t k') := .next ⟨rfl, rfl, rfl⟩ (.plain hn .nil)
  obtain ⟨hq, hv, hcalls⟩ := hstart.polls hmoves (.refl w) run run' hy hy' ho
  exact ⟨hq.exit?_eq, hcalls, hv⟩

/-- A continuation that writes a word to the log and goes on with what it is given. -/
def jotting (s : String) : Payload → Action Node := fun p => do
  Action.perform (.log (.str s))
  return .succeed p

/-- A host future that takes so many milliseconds. -/
def sleeping (ms : Nat) : OperationId → Action Future := fun _ => return .sleep ms (.settle (.ok .unit))

/-- Two words are written to the log, after a while. -/
def jottedLate : Node := (Node.promise (sleeping 5)).chain fun p => do return (← jotting "first" p).chain (jotting "second")

/-- The same with the chains in another order, and with a value that is handed back in the end. -/
def jottedLateApart : Node :=
  (((Node.promise (sleeping 5)).chain (jotting "first")).chain (jotting "second")).map fun p => return p

/-- The clock is moved before the second poll, and once more before the third one. -/
def clockMoves : List (World → World) := [id, fun w => { w with now := 5 }, fun w => { w with now := 10 }]

theorem clockMoves_alike : ∀ f ∈ clockMoves, ∀ a b, World.Alike a b → (f a).Alike (f b) := by
  intro f hf a b h
  obtain ⟨_, _, _, rfl⟩ := h.exists_eq
  simp only [clockMoves, List.mem_cons, List.not_mem_nil, or_false] at hf
  rcases hf with rfl | rfl | rfl <;> rfl

theorem regrouped_runs_agree_jotted :
    ∃ h v h' v',
      Process.Polls clockMoves (.start jottedLate (.plain .null) 0 100) (World.newToken default).2 h
          (.settled (.success .unit)) v ∧
        Process.Polls clockMoves (.start jottedLateApart (.plain .null) 0 100) (World.newToken default).2 h'
            (.settled (.success .unit)) v' ∧
          Call.Regrouped true h.calls h'.calls ∧ v.log = #[.str "first", .str "second"] ∧ v'.log = v.log := by
  have run := Process.polls_of_allRest 20 clockMoves (.start jottedLate (.plain .null) 0 100) (World.newToken default).2
    (by decide +kernel)
  have run' := Process.polls_of_allRest 20 clockMoves (.start jottedLateApart (.plain .null) 0 100) (World.newToken default).2
    (by decide +kernel)
  have hn : jottedLate.Regroups true jottedLateApart := .handed rfl (Node.regroups_assoc _ _ _)
  obtain ⟨-, hcalls, halike⟩ := regrouped_runs_agree hn clockMoves_alike run run' (by decide +kernel) (by decide +kernel)
    (by decide +kernel)
  refine ⟨_, _, _, _, run, run', hcalls, rfl, ?_⟩
  obtain ⟨_, _, _, hv⟩ := halike.exists_eq
  rw [hv]

/-- A success that is held up by its finalizer. -/
def closingSlowly : Node := .ensuring (.succeed .unit) (.promise (sleeping 10))

/-- A continuation that fails. -/
def failingLate : Payload → Action Node := fun _ => return .fail (.fail (.str "late"))

/-- An effect that is gone on with, beside another one that fails after a while. -/
def besideFailure (n : Node) : Node := .all [n.chain (jotting "called"), (Node.promise (sleeping 5)).chain failingLate]

/-- The failure of its sibling trips the token of an effect while a finalizer holds up its value. The value is handed to the
continuation all the same; if it is handed back first, the interpreter looks at its token before it goes on, and the continuation
is not called. Neither a callback nor anybody else trips a token, and no interpreter yields. -/
theorem handing_back_unequal :
    ∃ h v h' v',
      Process.Polls clockMoves (.start (besideFailure closingSlowly) (.plain .null) 0 100) (World.newToken default).2 h
          (.settled (.failure (.fail (.str "late")))) v ∧
        Process.Polls clockMoves (.start (besideFailure (closingSlowly.map fun p => return p)) (.plain .null) 0 100)
            (World.newToken default).2 h' (.settled (.failure (.fail (.str "late")))) v' ∧
          (∀ y ∈ h ++ h', y.1.reachesInterval = false) ∧ (∀ f ∈ clockMoves, ∀ a, (f a).tokens = a.tokens) ∧
            (∀ a p, ((jotting "called" p).run a).2.tokens = a.tokens ∧ ((failingLate p).run a).2.tokens = a.tokens) ∧
              h.calls = [.promise (sleeping 10) 0, .promise (sleeping 5) 1, .apply failingLate .unit,
                .apply (jotting "called") .unit] ∧
              h'.calls = [.promise (sleeping 10) 0, .promise (sleeping 5) 1, .apply failingLate .unit,
                .apply Node.handBack .unit] ∧
              v.log = #[.str "called"] ∧ v'.log = #[] := by
  have run := Process.polls_of_allRest 60 clockMoves (.start (besideFailure closingSlowly) (.plain .null) 0 100)
    (World.newToken default).2 (by decide +kernel)
  have run' := Process.polls_of_allRest 60 clockMoves
    (.start (besideFailure (closingSlowly.map fun p => return p)) (.plain .null) 0 100) (World.newToken default).2
    (by decide +kernel)
  refine ⟨_, _, _, _, run, run', by decide +kernel, ?_, fun a p => ⟨rfl, rfl⟩, rfl, rfl, rfl, rfl⟩
  intro f hf a
  simp only [clockMoves, List.mem_cons, List.not_mem_nil, or_false] at hf
  rcases hf with rfl | rfl | rfl <;> rfl

end Interruptible
