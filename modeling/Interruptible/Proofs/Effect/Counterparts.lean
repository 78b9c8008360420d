import Interruptible.Effect.Bracket
import Interruptible.Proofs.World.Counterparts

/-!
# Effects that are the same up to names

Two trees match if they have the same shape and their callbacks match, down to the trees that these build (`Node.Matches`).
The combinators make matching trees of matching parts; so does a bracket, which makes a cell of its own
(`Node.bracketExit_matches`).
-/

namespace Interruptible

/-- Trees that are the same up to names, with the callbacks in them. -/
inductive Node.Matches : Counterparts → Node → Node → Prop
  | succeed (κ : Counterparts) (p : Payload) : Matches κ (.succeed p) (.succeed p)
  | succeedLazy {κ : Counterparts} {a a' : Action (Except (Cause Value) Payload)} (h : a.Matches (fun _ => Eq) κ a') :
    Matches κ (.succeedLazy a) (.succeedLazy a')
  | fail (κ : Counterparts) (c : Cause Value) : Matches κ (.fail c) (.fail c)
  | interrupt (κ : Counterparts) : Matches κ .interrupt .interrupt
  | asks {κ : Counterparts} {r r' : Environment → Action Node} (h : ∀ env, (r env).Matches Matches κ (r' env)) :
    Matches κ (.asks r) (.asks r')
  | give {κ : Counterparts} {n n' : Node} (h : Matches κ n n') (env : Environment) : Matches κ (.give n env) (.give n' env)
  | all {κ : Counterparts} {ns ns' : List Node} (hlen : ns.length = ns'.length)
      (h : ∀ i (hi : i < ns.length) (hi' : i < ns'.length), Matches κ ns[i] ns'[i]) : Matches κ (.all ns) (.all ns')
  | defer {κ : Counterparts} {a a' : Action Node} (h : a.Matches Matches κ a') : Matches κ (.defer a) (.defer a')
  | liftPromise {κ : Counterparts} {f f' : OperationId → Action Future} {r r' : Value → Action (Cause Value)}
      (hf : ∀ κ' o o', κ.Sub κ' → κ'.ids .operation o o' → (f o).Matches Future.Matches κ' (f' o'))
      (hr : ∀ x, (r x).Matches (fun _ => Eq) κ (r' x)) : Matches κ (.liftPromise f r) (.liftPromise f' r')
  | chain {κ : Counterparts} {n n' : Node} {k k' : Payload → Action Node} (h : Matches κ n n')
      (hk : ∀ p, (k p).Matches Matches κ (k' p)) : Matches κ (.chain n k) (.chain n' k')
  | matchCause {κ : Counterparts} {n n' : Node} {r r' : Cause Value → Action Node} {k k' : Payload → Action Node}
      (h : Matches κ n n') (hr : ∀ c, (r c).Matches Matches κ (r' c)) (hk : ∀ p, (k p).Matches Matches κ (k' p)) :
    Matches κ (.matchCause n r k) (.matchCause n' r' k')
  | ensuring {κ : Counterparts} {n n' m m' : Node} (h : Matches κ n n') (hm : Matches κ m m') :
    Matches κ (.ensuring n m) (.ensuring n' m')

/-- Results without names are the same with more counterparts. -/
theorem Action.Matches.mono_eq {α : Type} {κ κ' : Counterparts} {a a' : Action α} (h : a.Matches (fun _ => Eq) κ a')
    (hκ : κ.Sub κ') : a.Matches (fun _ => Eq) κ' a' :=
  h.mono hκ fun _ _ _ _ _ h => h

mutual
/-- Trees that match do so with more counterparts. The induction is on how they match. -/
theorem Node.Matches.mono {κ κ' : Counterparts} {n n' : Node} (hκ : κ.Sub κ') : n.Matches κ n' → n.Matches κ' n'
  | .succeed _ p => .succeed κ' p
  | .succeedLazy h => .succeedLazy (h.mono_eq hκ)
  | .fail _ c => .fail κ' c
  | .interrupt _ => .interrupt κ'
  | .asks h => .asks fun env => (h env).mono_node hκ
  | .give h env => .give (h.mono hκ) env
  | .all hlen h => .all hlen fun i hi hi' => (h i hi hi').mono hκ
  | .defer h => .defer (h.mono_node hκ)
  | .liftPromise hf hr =>
    .liftPromise (fun κ'' o o' hκ' ho => hf κ'' o o' (hκ.trans hκ') ho) fun x => (hr x).mono_eq hκ
  | .chain h hk => .chain (h.mono hκ) fun p => (hk p).mono_node hκ
  | .matchCause h hr hk => .matchCause (h.mono hκ) (fun c => (hr c).mono_node hκ) fun p => (hk p).mono_node hκ
  | .ensuring h hm => .ensuring (h.mono hκ) (hm.mono hκ)
/-- Callbacks that match do so with more counterparts. -/
theorem Action.Matches.mono_node {κ κ' : Counterparts} {a a' : Action Node} (hκ : κ.Sub κ') :
    a.Matches Node.Matches κ a' → a.Matches Node.Matches κ' a'
  | .pure h => .pure (h.mono hκ)
  | .panic _ p => .panic κ' p
  | .ask hc h => .ask (hc.mono hκ) fun κ'' r r' hκ' hr => h κ'' r r' (hκ.trans hκ') hr
  | .subscribe ht hl h =>
    .subscribe (hκ.ids _ _ _ ht) (hl.mono hκ) fun κ'' s s' hκ' hs => h κ'' s s' (hκ.trans hκ') hs
  | .register ho hl h => .register (hκ.ids _ _ _ ho) (hl.mono hκ) (h.mono_node hκ)
end

namespace Node

variable {κ : Counterparts}

/-- Groups match if their children do one by one. -/
theorem Matches.all_of_forall₂ {ns ns' : List Node} (h : List.Forall₂ (Node.Matches κ) ns ns') :
    (Node.all ns).Matches κ (.all ns') :=
  .all h.length_eq fun _ hi hi' => h.get hi hi'

/-- Children of groups that match one by one match as lists. -/
theorem Matches.forall₂ {ns ns' : List Node} (hlen : ns.length = ns'.length)
    (h : ∀ i (hi : i < ns.length) (hi' : i < ns'.length), ns[i].Matches κ ns'[i]) :
    List.Forall₂ (Node.Matches κ) ns ns' :=
  List.forall₂_iff_get.mpr ⟨hlen, h⟩

/-! ## Combinators -/

/-- The node of an exit has no names in it. -/
theorem matches_done (e : Exit Value Payload) : (done e).Matches κ (done e) := by
  cases e with
  | success p => exact .succeed κ p
  | failure c => exact .fail κ c

/-- Trees that match do so when their values are dropped. -/
theorem Matches.asUnit {n n' : Node} (h : n.Matches κ n') : n.asUnit.Matches κ n'.asUnit :=
  .chain h fun _ => .pure (.succeed κ _)

/-- Trees that match do so when their exits are made values. -/
theorem Matches.result {n n' : Node} (h : n.Matches κ n') : n.result.Matches κ n'.result :=
  .matchCause h (fun _ => .pure (.succeed κ _)) fun _ => .pure (.succeed κ _)

/-- Continuations for exits match if what they do does for each exit. -/
theorem matches_onExit {f f' : Exit Value Payload → Action Node} (h : ∀ e, (f e).Matches Node.Matches κ (f' e)) (p : Payload) :
    (onExit f p).Matches Node.Matches κ (onExit f' p) := by
  cases p <;> exact h _

/-- What follows a release has no names in it. -/
theorem matches_afterRelease (used released : Exit Value Payload) :
    (afterRelease used released).Matches κ (afterRelease used released) := by
  cases used with
  | success p =>
    cases released with
    | success q => exact .succeed κ p
    | failure r => exact .fail κ r
  | failure c =>
    cases released with
    | success q => exact .fail κ c
    | failure r => exact .fail κ _

section

variable {release release' : Payload → Exit Value Payload → Action Node}

/-- The releases of two brackets match if their release functions do. -/
theorem matches_releasing (h : ∀ x e, (release x e).Matches Node.Matches κ (release' x e)) (x : Payload)
    (e : Exit Value Payload) : (releasing release x e).Matches Node.Matches κ (releasing release' x e) :=
  (h x e).bind fun _ _ _ _ hn => .pure hn.asUnit

variable {c c' : CellId} (hc : κ.ids .cell c c')
  (h : ∀ κ', κ.Sub κ' → ∀ x e, (release x e).Matches Node.Matches κ' (release' x e))

include hc h

/-- The releases after use match if the cells of two brackets are counterparts and their release functions match. -/
theorem matches_releaseAfterUse (used : Exit Value Payload) :
    (releaseAfterUse c release used).Matches Node.Matches κ (releaseAfterUse c' release' used) := by
  refine .ask (.take hc) fun κ' r r' hκ hr => ?_
  obtain rfl : r = r' := hr
  cases r with
  | none => exact .pure (matches_done used)
  | some x =>
    refine (matches_releasing (h κ' hκ) x used).bind fun κ'' n n' _ hn => .pure (.chain hn.result fun p => ?_)
    exact matches_onExit (fun e => .pure (matches_afterRelease used e)) p

/-- The finalizers of two brackets match if their cells are counterparts and their release functions match. -/
theorem matches_releaseOnInterrupt : (releaseOnInterrupt c release).Matches κ (releaseOnInterrupt c' release') := by
  refine .defer (.ask (.take hc) fun κ' r r' hκ hr => ?_)
  obtain rfl : r = r' := hr
  cases r with
  | none => exact .pure (.succeed κ' _)
  | some x => exact matches_releasing (h κ' hκ) x .interrupted

end

/-- A bracket whose parts match. -/
theorem bracketExit_matches {acquire acquire' : Node} {use use' : Payload → Action Node}
    {release release' : Payload → Exit Value Payload → Action Node} (ha : acquire.Matches κ acquire')
    (hu : ∀ x, (use x).Matches Node.Matches κ (use' x))
    (hr : ∀ x e, (release x e).Matches Node.Matches κ (release' x e)) :
    (bracketExit acquire use release).Matches Node.Matches κ (bracketExit acquire' use' release') := by
  refine .ask .newCell fun κ' c c' hκ hc => .pure (.ensuring (.chain (ha.mono hκ) fun x => .pure ?_) ?_)
  · have huse : (useResource c use x).Matches κ' (useResource c' use' x) :=
      .defer (.ask (.fill hc x) fun κ'' _ _ hκ' _ => (hu x).mono_node (hκ.trans hκ'))
    refine .chain huse.result fun p => matches_onExit (fun e => ?_) p
    exact matches_releaseAfterUse hc (fun κ'' hκ' x e => (hr x e).mono_node (hκ.trans hκ')) e
  · exact matches_releaseOnInterrupt hc fun κ'' hκ' x e => (hr x e).mono_node (hκ.trans hκ')

end Node

end Interruptible
