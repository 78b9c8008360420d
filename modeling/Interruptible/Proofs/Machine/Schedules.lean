import Interruptible.Proofs.Machine.PlanTurns

/-!
# Schedules

What an effect with pure callbacks comes to does not depend on when its interpreters yield and on how long its futures take:
a run that settles, that nobody disturbs and in which no branch of a group fails, settles with the exit of the plan that the
effect carries out (`Plan.CarriedOut.exit_eq`). Two such runs of effects that carry out one plan settle with the same exit
(`exit_independent_of_schedule`), whatever else goes on around each of them.
-/

namespace Interruptible

/-- A run of a process that is left alone leads to the same exit. -/
theorem Process.Follows.run {R : World → World → Prop} {own : CellId → Prop} (hR : ∀ a b, R a b → a.Later b)
    (hspare : ∀ a b, R a b → ∀ c, own c → b.cells[c]? = a.cells[c]?) {p q : Process} {w v : World} {h : History}
    {H : Heap} {x : Option (Exit Value Payload)} (run : Process.Run R p w h q v) (hp : p.Follows w H x) (hw : w.Sound)
    (hH : H.Stands own w) (hu : h.Undisturbed) (hb : h.BranchesSucceed) (hsec : ∀ y ∈ h, y.1.Secluded own y.2) :
    ∃ H', q.Follows v H' x := by
  induction run generalizing H with
  | done => exact ⟨H, hp⟩
  | @turn p q w v h _ _ ih =>
    have hfirst : History.BranchesSucceed [(p, w)] := hb.mono fun y hy => by
      rw [History.turns_singleton] at hy
      exact List.mem_flatMap.mpr ⟨(p, w), List.mem_cons_self, hy⟩
    obtain ⟨H', hp', hbecomes⟩ := hp.turn hw hH (hu (p, w) List.mem_cons_self) hfirst (hsec (p, w) List.mem_cons_self)
    refine ih hp' ((p.turn_later w).sound hw) hbecomes.stands (fun y hy => hu y (List.mem_cons_of_mem _ hy)) ?_
      fun y hy => hsec y (List.mem_cons_of_mem _ hy)
    exact hb.mono fun y hy => by
      obtain ⟨z, hz, hy⟩ := List.mem_flatMap.mp hy
      exact List.mem_flatMap.mpr ⟨z, List.mem_cons_of_mem _ hz, hy⟩
  | moved hm _ ih => exact ih (hp.later (hR _ _ hm)) ((hR _ _ hm).sound hw) (hH.kept (hspare _ _ hm)) hu hb hsec

/-- A tree carries out a plan in a run that starts in `w` under the token `t`. Others, whose moves are `R`, do not touch the
cells that the run owns, nobody trips a token before an interpreter looks at it, and no branch of a group fails. -/
structure Plan.CarriedOut (plan : Plan) (own : CellId → Prop) (R : World → World → Prop) (n : Node) (t : TokenId) (w : World)
    (h : History) : Prop where
  realized : ∃ H, plan.Realized H n ∧ H.Stands own w
  token : t < w.tokens.size
  sound : w.Sound
  later : ∀ a b, R a b → a.Later b
  spared : ∀ a b, R a b → ∀ c, own c → b.cells[c]? = a.cells[c]?
  secluded : ∀ y ∈ h, y.1.Secluded own y.2
  undisturbed : h.Undisturbed
  succeeding : h.BranchesSucceed

/-- A run in which a plan is carried out settles with the exit of the plan. -/
theorem Plan.CarriedOut.exit_eq {plan : Plan} {own : CellId → Prop} {R : World → World → Prop} {n : Node} {t : TokenId}
    {w v : World} {h : History} (hc : plan.CarriedOut own R n t w h) {env : Environment} {k : Nat} {e : Exit Value Payload}
    (run : Process.Run R (.start n env t k) w h (.settled e) v) : (plan.result env).map Result.exit = some e := by
  obtain ⟨H, hn, hH⟩ := hc.realized
  have hstart : (Process.start n env t k).Follows w (H ++ []) _ :=
    .next ⟨hc.token, fun _ => rfl⟩ (.onTop (.plan hn) (@Frame.Stack.nil env []))
  rw [List.append_nil] at hstart
  obtain ⟨_, hend⟩ :=
    hstart.run hc.later hc.spared run hc.sound hH hc.undisturbed hc.succeeding hc.secluded
  cases hend with
  | settled hx =>
    rw [← hx]
    cases plan.result env <;> rfl

/-- Two runs of effects with pure callbacks that carry out one plan, and may differ in how long their futures take, in when
their interpreters yield, in the tokens and cells that they use and in what goes on around them: if both settle, they settle
with the same exit, as long as nobody disturbs them and no branch of a group fails. -/
theorem exit_independent_of_schedule {plan : Plan} {env : Environment} {own₁ own₂ : CellId → Prop}
    {R₁ R₂ : World → World → Prop} {n₁ n₂ : Node} {t₁ t₂ : TokenId} {k₁ k₂ : Nat} {w₁ w₂ v₁ v₂ : World} {h₁ h₂ : History}
    {e₁ e₂ : Exit Value Payload} (hc₁ : plan.CarriedOut own₁ R₁ n₁ t₁ w₁ h₁) (hc₂ : plan.CarriedOut own₂ R₂ n₂ t₂ w₂ h₂)
    (run₁ : Process.Run R₁ (.start n₁ env t₁ k₁) w₁ h₁ (.settled e₁) v₁)
    (run₂ : Process.Run R₂ (.start n₂ env t₂ k₂) w₂ h₂ (.settled e₂) v₂) : e₁ = e₂ :=
  Option.some.inj ((hc₁.exit_eq run₁).symm.trans (hc₂.exit_eq run₂))

/-- A future beside a bracket whose acquisition awaits another future. -/
def besideBracket (first second : Nat) : Node :=
  .all [.fromFuture (.yield first (.settle (.ok (.value (.int 1))))),
    toldLease.bracketed (.fromFuture (.yield second (.settle (.ok (.value (.int 2))))))]

/-- The plan that it carries out, however long the futures take. -/
def besideBracketPlan : Plan :=
  .all [.await (.ok (.value (.int 1))),
    .bracket (.await (.ok (.value (.int 2)))) (fun p => .succeed p) (fun _ _ => none) fun _ _ => .succeed .unit]

theorem besideBracket_realized (first second : Nat) :
    besideBracketPlan.Realized [(0, none)] (besideBracket first second) := by
  have hawait : ∀ (n : Nat) (p : Payload),
      (Plan.await (.ok p)).Realized [] (.fromFuture (.yield n (.settle (.ok p)))) := fun n p =>
    ⟨_, _, rfl, fun _ => .pure rfl⟩
  refine ⟨_, rfl, _, _, [], [(0, none)], rfl, rfl, hawait _ _, _, [], [(0, none)], [], rfl, rfl, ?_, rfl⟩
  exact ⟨_, [], [], [], toldLease, rfl, rfl, hawait _ _, fun p => .pure rfl,
    fun p used => .ask trivial fun _ => .pure ⟨rfl, rfl⟩⟩

/-- A run of it alone. -/
def besideBracketRun (first second k : Nat) : History × Process × World :=
  Process.alone 200 (.start (besideBracket first second) (.plain .null) 0 k)
    { (World.newToken default).2 with cells := #[none] }

/-- Whether what lies in a cell is the same before and after, as far as it is nothing or a number. -/
def sameNumber : Option (Option Payload) → Option (Option Payload) → Bool
  | some none, some none => true
  | some (some (.value (.int a))), some (some (.value (.int b))) => a == b
  | _, _ => false

theorem eq_of_sameNumber {x y : Option (Option Payload)} (h : sameNumber x y = true) : x = y := by
  unfold sameNumber at h
  split at h
  · rfl
  · rw [beq_iff_eq.mp h]
  · nomatch h

/-- What is checked of each turn of such a run: nobody has tripped a token, no cell is made, and the one that is there is left
alone when a future is polled. -/
def besideBracketTurn (y : Process × World) : Bool :=
  (y.2.tokens.all fun t => !t.interrupted) && (y.1.turn y.2).world.cells.size == y.2.cells.size &&
    (!y.1.letsOthersIn || sameNumber (y.1.turn y.2).world.cells[0]? y.2.cells[0]?)

theorem Process.undisturbed_of_untripped {w : World} (hw : ∀ t, w.isInterrupted t = false) :
    (p : Process) → p.Undisturbed w
  | .counted m _ => hw m.token
  | .awaiting m _ => hw m.token
  | .finalizing _ _ child => undisturbed_of_untripped hw child
  | .joining m _ _ [] => hw m.token
  | .joining _ _ _ (.running q :: _) => undisturbed_of_untripped hw q
  | .joining _ _ _ (.finished _ :: _) => trivial
  | .next _ _ | .popping _ _ | .settled _ => trivial

theorem besideBracket_carriedOut {first second k : Nat}
    (hturns : (besideBracketRun first second k).1.all besideBracketTurn = true)
    (hbranches : (besideBracketRun first second k).1.turns.all (fun y => (y.1.branchEvents y.2).all fun
      | .polled _ => true
      | .recorded _ e => e.isSuccess) = true) :
    besideBracketPlan.CarriedOut (· = 0) Eq (besideBracket first second) 0
      { (World.newToken default).2 with cells := #[none] } (besideBracketRun first second k).1 where
  realized := by
    refine ⟨_, besideBracket_realized first second, by simp, fun x hx => ?_, fun x hx => ?_⟩
    · rw [List.mem_singleton.mp hx]
    · rw [List.mem_singleton.mp hx]
      rfl
  token := Nat.zero_lt_one
  sound := (World.newToken_later default).sound (World.sound_of_no_tokens rfl)
  later a b hm := hm ▸ .refl a
  spared a b hm c _ := by rw [hm]
  secluded y hy := by
    have hcheck := List.all_eq_true.mp hturns y hy
    simp only [besideBracketTurn, Bool.and_eq_true, beq_iff_eq] at hcheck
    obtain ⟨⟨-, hsize⟩, hcell⟩ := hcheck
    refine ⟨fun hl c hc => ?_, fun _ c hle hlt => ?_⟩
    · rw [hl] at hcell
      subst hc
      exact eq_of_sameNumber hcell
    · rw [hsize] at hlt
      exact absurd hle (Nat.not_le.mpr hlt)
  undisturbed y hy := by
    have hcheck := List.all_eq_true.mp hturns y hy
    simp only [besideBracketTurn, Bool.and_eq_true] at hcheck
    refine y.1.undisturbed_of_untripped fun t => ?_
    cases ht : y.2.tokens[t]? with
    | none => simp [World.isInterrupted, ht]
    | some x =>
      have := Array.all_eq_true'.mp hcheck.1.1 x (Array.mem_of_getElem? ht)
      simpa [World.isInterrupted, ht] using this
  succeeding y hy i e he := by
    have hcheck := List.all_eq_true.mp hbranches y hy
    exact List.all_eq_true.mp hcheck _ he

/-- In the second run the first future takes longer than the other one, and the interpreters yield at every node. -/
theorem exit_independent_of_schedule_beside :
    ∃ (h₁ h₂ : History) (e₁ e₂ : Exit Value Payload) (v₁ v₂ : World),
      Process.Run Eq (.start (besideBracket 0 3) (.plain .null) 0 100)
          { (World.newToken default).2 with cells := #[none] } h₁ (.settled e₁) v₁ ∧
        Process.Run Eq (.start (besideBracket 2 0) (.plain .null) 0 1)
            { (World.newToken default).2 with cells := #[none] } h₂ (.settled e₂) v₂ ∧
          h₁.length < h₂.length ∧ e₁ = .success (.list [.value (.int 1), .value (.int 2)]) ∧ e₁ = e₂ := by
  have run₁ : Process.Run Eq (.start (besideBracket 0 3) (.plain .null) 0 100)
      { (World.newToken default).2 with cells := #[none] } (besideBracketRun 0 3 100).1
      (.settled (.success (.list [.value (.int 1), .value (.int 2)]))) (besideBracketRun 0 3 100).2.2 :=
    Process.alone_run 200 _ _
  have run₂ : Process.Run Eq (.start (besideBracket 2 0) (.plain .null) 0 1)
      { (World.newToken default).2 with cells := #[none] } (besideBracketRun 2 0 1).1
      (.settled (.success (.list [.value (.int 1), .value (.int 2)]))) (besideBracketRun 2 0 1).2.2 :=
    Process.alone_run 200 _ _
  exact ⟨_, _, _, _, _, _, run₁, run₂, by decide +kernel, rfl,
    exit_independent_of_schedule (besideBracket_carriedOut (by decide +kernel) (by decide +kernel))
      (besideBracket_carriedOut (by decide +kernel) (by decide +kernel)) run₁ run₂⟩

end Interruptible
