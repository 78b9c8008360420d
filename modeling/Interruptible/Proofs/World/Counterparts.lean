import Mathlib.Data.List.Forall2
import Mathlib.Data.Option.Basic
import Interruptible.Host.Perform

/-!
# Counterparts

Code holds names of tokens, operations and cells, and it never sees what these names are: it can only hand them back to the
world. So two worlds can be the same for it although the same thing goes by different names in them, and although they differ
in everything that it has no name for. `Counterparts` says which names of one world stand for which names of the other one,
and which parts of the state that have fixed names (counters, gates, the clock, the places where tokens, hooks and
subscriptions are kept) it may read and write.

Code matches if it is the same up to the names in it, and if that is so again of what it does next, whatever matching answers
it gets (`Command.Matches`, `Listener.Matches`, `Action.Matches`, `Future.Matches`). Two worlds match if all that the
counterparts name in them does (`World.Matches`). Code that matches itself deals with nothing but what it has names for
(`Region.diagonal`).
-/

namespace Interruptible

/-! ## What has a name -/

/-- What code can hold a name of. -/
inductive Kind where
  | token
  | operation
  | cell
deriving Repr, DecidableEq

/-- What goes by such a name. -/
@[reducible]
def Kind.Entry : Kind → Type
  | .token => Token
  | .operation => Operation
  | .cell => Option Payload

/-- A part of the state that goes by a fixed name. -/
inductive Slot where
  | clock
  | counter (name : String)
  | gate (name : String)
  | tokenName (name : String)
  | cancelName (name : String)
  | hooksName (name : String)
  | subscriptionName (name : String)
deriving Repr, DecidableEq

/-- What there is to be read in a slot. -/
@[reducible]
def Slot.Content : Slot → Type
  | .clock => Nat
  | .counter _ => Int
  | .gate _ => Bool
  | .tokenName _ | .cancelName _ => Option TokenId
  | .hooksName _ => Option OperationId
  | .subscriptionName _ => Option Subscription

/-- Whether what there is to be read in a slot has no name in it. -/
def Slot.Plain : Slot → Prop
  | .clock | .counter _ | .gate _ => True
  | .tokenName _ | .cancelName _ | .hooksName _ | .subscriptionName _ => False

namespace World

/-- What goes by a name. -/
def entry (w : World) : (k : Kind) → Nat → Option k.Entry
  | .token, i => w.tokens[i]?
  | .operation, i => w.operations[i]?
  | .cell, i => w.cells[i]?

/-- The number of names of a kind that have been given out. -/
def count (w : World) : Kind → Nat
  | .token => w.tokens.size
  | .operation => w.operations.size
  | .cell => w.cells.size

/-- What there is in a slot. -/
def slot (w : World) : (s : Slot) → s.Content
  | .clock => w.now
  | .counter name => w.counter name
  | .gate name => w.isOpen name
  | .tokenName name => w.names.tokens.find? name
  | .cancelName name => w.names.cancels.find? name
  | .hooksName name => w.names.hooks.find? name
  | .subscriptionName name => w.names.subscriptions.find? name

/-- A name that stands for something has been given out. -/
theorem lt_count {w : World} {k : Kind} {i : Nat} {x : k.Entry} (h : w.entry k i = some x) : i < w.count k := by
  cases k <;> exact (Array.getElem?_eq_some_iff.mp h).1

end World

/-! ## Names and their counterparts -/

/-- Names of one world with the names of another one that they stand for, and the slots that may be read and written in both
of them. -/
@[ext]
structure Counterparts where
  ids : Kind → Nat → Nat → Prop
  reads : Slot → Prop
  writes : Slot → Prop

/-- Names of one world, and slots that may be read and written. -/
@[ext]
structure Region where
  ids : Kind → Nat → Prop
  reads : Slot → Prop
  writes : Slot → Prop

/-- Each name of a region stands for itself. -/
def Region.diagonal (V : Region) : Counterparts where
  ids k a b := V.ids k a ∧ a = b
  reads := V.reads
  writes := V.writes

/-- A region with the names that have been given out on the way from one world to another. -/
def Region.grown (V : Region) (w v : World) : Region where
  ids k a := V.ids k a ∨ w.count k ≤ a ∧ a < v.count k
  reads := V.reads
  writes := V.writes

namespace Counterparts

/-- What is named on the first side. -/
def left (κ : Counterparts) : Region where
  ids k a := ∃ b, κ.ids k a b
  reads := κ.reads
  writes := κ.writes

/-- What is named on the second side. -/
def right (κ : Counterparts) : Region where
  ids k b := ∃ a, κ.ids k a b
  reads := κ.reads
  writes := κ.writes

/-- More counterparts. -/
structure Sub (κ κ' : Counterparts) : Prop where
  ids : ∀ k a b, κ.ids k a b → κ'.ids k a b
  reads : ∀ s, κ.reads s → κ'.reads s
  writes : ∀ s, κ.writes s → κ'.writes s

theorem Sub.refl (κ : Counterparts) : κ.Sub κ := ⟨fun _ _ _ h => h, fun _ h => h, fun _ h => h⟩

theorem Sub.trans {κ κ' κ'' : Counterparts} (h : κ.Sub κ') (h' : κ'.Sub κ'') : κ.Sub κ'' where
  ids k a b hab := h'.ids k a b (h.ids k a b hab)
  reads s hs := h'.reads s (h.reads s hs)
  writes s hs := h'.writes s (h.writes s hs)

/-- When one world has gone from `w` to `v` and the other one has started from `w'`, what has been made on the way is matched
with what has been made there, in the order in which it was made. -/
def grown (κ : Counterparts) (w w' v : World) : Counterparts where
  ids k a b := κ.ids k a b ∨ w.count k ≤ a ∧ a < v.count k ∧ a + w'.count k = b + w.count k
  reads := κ.reads
  writes := κ.writes

/-- Counterparts stay counterparts when names are added. -/
theorem sub_grown (κ : Counterparts) (w w' v : World) : κ.Sub (κ.grown w w' v) :=
  ⟨fun _ _ _ h => .inl h, fun _ h => h, fun _ h => h⟩

/-- Where nothing has been made, there are no more counterparts. -/
theorem grown_of_count {w v : World} (h : ∀ k, v.count k = w.count k) (κ : Counterparts) (w' : World) :
    κ.grown w w' v = κ := by
  refine Counterparts.ext ?_ rfl rfl
  funext k a b
  refine propext ⟨fun hab => ?_, .inl⟩
  rcases hab with hab | ⟨hle, hlt, -⟩
  · exact hab
  · exact absurd (h k ▸ hlt) (Nat.not_lt.mpr hle)

/-- What has been made in two stretches, of the same length on both sides. -/
theorem grown_grown {w w' v v' x : World} (h : ∀ k, w.count k ≤ v.count k) (h' : ∀ k, v.count k ≤ x.count k)
    (heven : ∀ k, v.count k + w'.count k = v'.count k + w.count k) (κ : Counterparts) :
    (κ.grown w w' v).grown v v' x = κ.grown w w' x := by
  refine Counterparts.ext ?_ rfl rfl
  funext k a b
  have := h k
  have := h' k
  have := heven k
  refine propext ⟨fun hab => ?_, fun hab => ?_⟩
  · rcases hab with (hab | hab) | hab
    · exact .inl hab
    · exact .inr (by omega)
    · exact .inr (by omega)
  · rcases hab with hab | hab
    · exact .inl (.inl hab)
    · by_cases hlt : a < v.count k
      · exact .inl (.inr (by omega))
      · exact .inr (by omega)

end Counterparts

/-- What a region has come to name, each name for itself. -/
theorem Region.diagonal_grown (V : Region) (w v : World) : V.diagonal.grown w w v = (V.grown w v).diagonal := by
  refine Counterparts.ext ?_ rfl rfl
  funext k a b
  refine propext ⟨fun hab => ?_, fun hab => ?_⟩
  · rcases hab with ⟨ha, rfl⟩ | ⟨hle, hlt, heq⟩
    · exact ⟨.inl ha, rfl⟩
    · exact ⟨.inr ⟨hle, hlt⟩, Nat.add_right_cancel heq⟩
  · obtain ⟨ha | ⟨hle, hlt⟩, rfl⟩ := hab
    · exact .inl ⟨ha, rfl⟩
    · exact .inr ⟨hle, hlt, rfl⟩

/-! ## Code that is the same up to names -/

/-- Subscriptions with the same key of tokens that are counterparts. -/
structure Subscription.Matches (κ : Counterparts) (s s' : Subscription) : Prop where
  token : κ.ids .token s.token s'.token
  key : s.key = s'.key

/-- Commands that ask for the same, and which answers are the same. -/
inductive Command.Matches (κ : Counterparts) :
    (c c' : Command) → (Counterparts → c.Reply → c'.Reply → Prop) → Prop
  | log (v : Value) : Matches κ (.log v) (.log v) fun _ => Eq
  | bump {n : String} (hr : κ.reads (.counter n)) (hw : κ.writes (.counter n)) : Matches κ (.bump n) (.bump n) fun _ => Eq
  | counter {n : String} (hr : κ.reads (.counter n)) : Matches κ (.counter n) (.counter n) fun _ => Eq
  | now (hr : κ.reads .clock) : Matches κ .now .now fun _ => Eq
  | openGate {g : String} (hw : κ.writes (.gate g)) : Matches κ (.openGate g) (.openGate g) fun _ => Eq
  | interrupt {t t' : TokenId} (ht : κ.ids .token t t') : Matches κ (.interrupt t) (.interrupt t') fun _ => Eq
  | isInterrupted {t t' : TokenId} (ht : κ.ids .token t t') :
    Matches κ (.isInterrupted t) (.isInterrupted t') fun _ => Eq
  | link {t t' u u' : TokenId} (ht : κ.ids .token t t') (hu : κ.ids .token u u') :
    Matches κ (.link t u) (.link t' u') fun κ' => Option.Rel (Subscription.Matches κ')
  | unsubscribe {s s' : Subscription} (hs : s.Matches κ s') : Matches κ (.unsubscribe s) (.unsubscribe s') fun _ => Eq
  | isFired {o o' : OperationId} (ho : κ.ids .operation o o') : Matches κ (.isFired o) (.isFired o') fun _ => Eq
  | newCell : Matches κ .newCell .newCell fun κ' => κ'.ids .cell
  | fill {c c' : CellId} (hc : κ.ids .cell c c') (p : Payload) : Matches κ (.fill c p) (.fill c' p) fun _ => Eq
  | take {c c' : CellId} (hc : κ.ids .cell c c') : Matches κ (.take c) (.take c') fun _ => Eq
  | findToken {n : String} (hr : κ.reads (.tokenName n)) :
    Matches κ (.findToken n) (.findToken n) fun κ' => Option.Rel (κ'.ids .token)
  | findCancel {n : String} (hr : κ.reads (.cancelName n)) :
    Matches κ (.findCancel n) (.findCancel n) fun κ' => Option.Rel (κ'.ids .token)
  | findHooks {n : String} (hr : κ.reads (.hooksName n)) :
    Matches κ (.findHooks n) (.findHooks n) fun κ' => Option.Rel (κ'.ids .operation)
  | keepHooks {n : String} {o o' : OperationId} (hw : κ.writes (.hooksName n)) (ho : κ.ids .operation o o') :
    Matches κ (.keepHooks n o) (.keepHooks n o') fun _ => Eq
  | keepSubscription {n : String} {s s' : Subscription} (hr : κ.reads (.subscriptionName n))
      (hw : κ.writes (.subscriptionName n)) (hs : s.Matches κ s') :
    Matches κ (.keepSubscription n s) (.keepSubscription n s') fun κ' => Option.Rel (Subscription.Matches κ')
  | takeSubscription {n : String} (hr : κ.reads (.subscriptionName n)) (hw : κ.writes (.subscriptionName n)) :
    Matches κ (.takeSubscription n) (.takeSubscription n) fun κ' => Option.Rel (Subscription.Matches κ')

/-- Listeners that do the same. -/
inductive Listener.Matches : Counterparts → Listener → Listener → Prop
  | done (κ : Counterparts) : Matches κ .done .done
  | panic (κ : Counterparts) (p : Panic) : Matches κ (.panic p) (.panic p)
  | ask {κ : Counterparts} {c c' : Command} {A : Counterparts → c.Reply → c'.Reply → Prop} {next : c.Reply → Listener}
      {next' : c'.Reply → Listener} (hc : c.Matches κ c' A)
      (h : ∀ κ' r r', κ.Sub κ' → A κ' r r' → Matches κ' (next r) (next' r')) : Matches κ (.ask c next) (.ask c' next')
  | subscribe {κ : Counterparts} {t t' : TokenId} {l l' : Listener} {next next' : Option Subscription → Listener}
      (ht : κ.ids .token t t') (hl : Matches κ l l')
      (h : ∀ κ' s s', κ.Sub κ' → Option.Rel (Subscription.Matches κ') s s' → Matches κ' (next s) (next' s')) :
    Matches κ (.subscribe t l next) (.subscribe t' l' next')
  | register {κ : Counterparts} {o o' : OperationId} {l l' next next' : Listener} (ho : κ.ids .operation o o')
      (hl : Matches κ l l') (h : Matches κ next next') : Matches κ (.register o l next) (.register o' l' next')

/-- Actions that do the same, with results that are the same as `Q` says. -/
inductive Action.Matches {α β : Type} (Q : Counterparts → α → β → Prop) : Counterparts → Action α → Action β → Prop
  | pure {κ : Counterparts} {a : α} {b : β} (h : Q κ a b) : Matches Q κ (.pure a) (.pure b)
  | panic (κ : Counterparts) (p : Panic) : Matches Q κ (.panic p) (.panic p)
  | ask {κ : Counterparts} {c c' : Command} {A : Counterparts → c.Reply → c'.Reply → Prop} {next : c.Reply → Action α}
      {next' : c'.Reply → Action β} (hc : c.Matches κ c' A)
      (h : ∀ κ' r r', κ.Sub κ' → A κ' r r' → Matches Q κ' (next r) (next' r')) : Matches Q κ (.ask c next) (.ask c' next')
  | subscribe {κ : Counterparts} {t t' : TokenId} {l l' : Listener} {next : Option Subscription → Action α}
      {next' : Option Subscription → Action β} (ht : κ.ids .token t t') (hl : l.Matches κ l')
      (h : ∀ κ' s s', κ.Sub κ' → Option.Rel (Subscription.Matches κ') s s' → Matches Q κ' (next s) (next' s')) :
    Matches Q κ (.subscribe t l next) (.subscribe t' l' next')
  | register {κ : Counterparts} {o o' : OperationId} {l l' : Listener} {next : Action α} {next' : Action β}
      (ho : κ.ids .operation o o') (hl : l.Matches κ l') (h : Matches Q κ next next') :
    Matches Q κ (.register o l next) (.register o' l' next')

/-- Signals that announce the same. -/
inductive Signal.Matches (κ : Counterparts) : Signal → Signal → Prop
  | gate {g : String} (hr : κ.reads (.gate g)) : Matches κ (.gate g) (.gate g)
  | token {t t' : TokenId} (ht : κ.ids .token t t') : Matches κ (.token t) (.token t')
  | task (t : TaskId) : Matches κ (.task t) (.task t)
  | tracker (t : TrackerId) : Matches κ (.tracker t) (.tracker t)

/-- Futures that do the same. Whoever sleeps reads the clock. -/
inductive Future.Matches : Counterparts → Future → Future → Prop
  | settle (κ : Counterparts) (r : Except Value Payload) : Matches κ (.settle r) (.settle r)
  | panic (κ : Counterparts) (p : Panic) : Matches κ (.panic p) (.panic p)
  | never (κ : Counterparts) : Matches κ .never .never
  | ask {κ : Counterparts} {c c' : Command} {A : Counterparts → c.Reply → c'.Reply → Prop} {next : c.Reply → Future}
      {next' : c'.Reply → Future} (hc : c.Matches κ c' A)
      (h : ∀ κ' r r', κ.Sub κ' → A κ' r r' → Matches κ' (next r) (next' r')) : Matches κ (.ask c next) (.ask c' next')
  | subscribe {κ : Counterparts} {t t' : TokenId} {l l' : Listener} {next next' : Option Subscription → Future}
      (ht : κ.ids .token t t') (hl : l.Matches κ l')
      (h : ∀ κ' s s', κ.Sub κ' → Option.Rel (Subscription.Matches κ') s s' → Matches κ' (next s) (next' s')) :
    Matches κ (.subscribe t l next) (.subscribe t' l' next')
  | register {κ : Counterparts} {o o' : OperationId} {l l' : Listener} {next next' : Future} (ho : κ.ids .operation o o')
      (hl : l.Matches κ l') (h : Matches κ next next') : Matches κ (.register o l next) (.register o' l' next')
  | sleep {κ : Counterparts} (ms : Nat) {next next' : Future} (hr : κ.reads .clock) (h : Matches κ next next') :
    Matches κ (.sleep ms next) (.sleep ms next')
  | sleepUntil {κ : Counterparts} (deadline : Nat) {next next' : Future} (hr : κ.reads .clock) (h : Matches κ next next') :
    Matches κ (.sleepUntil deadline next) (.sleepUntil deadline next')
  | yield {κ : Counterparts} (times : Nat) {next next' : Future} (h : Matches κ next next') :
    Matches κ (.yield times next) (.yield times next')
  | wait {κ : Counterparts} {s s' : Signal} {next next' : Future} (hs : s.Matches κ s') (h : Matches κ next next') :
    Matches κ (.wait s next) (.wait s' next')

/-! ### With more counterparts -/

section

variable {κ κ' : Counterparts} (hκ : κ.Sub κ')

include hκ

theorem Subscription.Matches.mono {s s' : Subscription} (h : s.Matches κ s') : s.Matches κ' s' :=
  ⟨hκ.ids _ _ _ h.token, h.key⟩

/-- So do subscriptions that there may be none of. -/
theorem Subscription.Matches.mono_option {s s' : Option Subscription} (h : Option.Rel (Subscription.Matches κ) s s') :
    Option.Rel (Subscription.Matches κ') s s' := by
  cases h with
  | none => exact .none
  | some h => exact .some (h.mono hκ)

/-- So do names that there may be none of. -/
theorem Counterparts.Sub.option {k : Kind} {a b : Option Nat} (h : Option.Rel (κ.ids k) a b) :
    Option.Rel (κ'.ids k) a b := by
  cases h with
  | none => exact .none
  | some h => exact .some (hκ.ids _ _ _ h)

theorem Command.Matches.mono {c c' : Command} {A : Counterparts → c.Reply → c'.Reply → Prop} (h : c.Matches κ c' A) :
    c.Matches κ' c' A := by
  cases h with
  | log v => exact .log v
  | bump hr hw => exact .bump (hκ.reads _ hr) (hκ.writes _ hw)
  | counter hr => exact .counter (hκ.reads _ hr)
  | now hr => exact .now (hκ.reads _ hr)
  | openGate hw => exact .openGate (hκ.writes _ hw)
  | interrupt ht => exact .interrupt (hκ.ids _ _ _ ht)
  | isInterrupted ht => exact .isInterrupted (hκ.ids _ _ _ ht)
  | link ht hu => exact .link (hκ.ids _ _ _ ht) (hκ.ids _ _ _ hu)
  | unsubscribe hs => exact .unsubscribe (hs.mono hκ)
  | isFired ho => exact .isFired (hκ.ids _ _ _ ho)
  | newCell => exact .newCell
  | fill hc p => exact .fill (hκ.ids _ _ _ hc) p
  | take hc => exact .take (hκ.ids _ _ _ hc)
  | findToken hr => exact .findToken (hκ.reads _ hr)
  | findCancel hr => exact .findCancel (hκ.reads _ hr)
  | findHooks hr => exact .findHooks (hκ.reads _ hr)
  | keepHooks hw ho => exact .keepHooks (hκ.writes _ hw) (hκ.ids _ _ _ ho)
  | keepSubscription hr hw hs => exact .keepSubscription (hκ.reads _ hr) (hκ.writes _ hw) (hs.mono hκ)
  | takeSubscription hr hw => exact .takeSubscription (hκ.reads _ hr) (hκ.writes _ hw)

theorem Signal.Matches.mono {s s' : Signal} (h : s.Matches κ s') : s.Matches κ' s' := by
  cases h with
  | gate hr => exact .gate (hκ.reads _ hr)
  | token ht => exact .token (hκ.ids _ _ _ ht)
  | task t => exact .task t
  | tracker t => exact .tracker t

end

/-- Listeners that match do so with more counterparts. The induction is on how they match. -/
theorem Listener.Matches.mono {κ κ' : Counterparts} {l l' : Listener} (h : l.Matches κ l') (hκ : κ.Sub κ') :
    l.Matches κ' l' := by
  induction h generalizing κ' with
  | done => exact .done κ'
  | panic _ p => exact .panic κ' p
  | ask hc h _ => exact .ask (hc.mono hκ) fun κ'' r r' hκ' hr => h κ'' r r' (hκ.trans hκ') hr
  | subscribe ht _ h ihl _ =>
    exact .subscribe (hκ.ids _ _ _ ht) (ihl hκ) fun κ'' s s' hκ' hs => h κ'' s s' (hκ.trans hκ') hs
  | register ho _ _ ihl ih => exact .register (hκ.ids _ _ _ ho) (ihl hκ) (ih hκ)

theorem Action.Matches.mono {α β : Type} {Q Q' : Counterparts → α → β → Prop} {κ κ' : Counterparts} {a : Action α}
    {b : Action β} (h : a.Matches Q κ b) (hκ : κ.Sub κ') (hQ : ∀ κ κ' x y, κ.Sub κ' → Q κ x y → Q' κ' x y) :
    a.Matches Q' κ' b := by
  induction h generalizing κ' with
  | pure h => exact .pure (hQ _ _ _ _ hκ h)
  | panic _ p => exact .panic κ' p
  | ask hc _ ih => exact .ask (hc.mono hκ) fun κ'' r r' hκ' hr => ih κ'' r r' (hκ.trans hκ') hr (.refl κ'')
  | subscribe ht hl _ ih =>
    exact .subscribe (hκ.ids _ _ _ ht) (hl.mono hκ) fun κ'' s s' hκ' hs => ih κ'' s s' (hκ.trans hκ') hs (.refl κ'')
  | register ho hl _ ih => exact .register (hκ.ids _ _ _ ho) (hl.mono hκ) (ih hκ)

theorem Future.Matches.mono {κ κ' : Counterparts} {f f' : Future} (h : f.Matches κ f') (hκ : κ.Sub κ') :
    f.Matches κ' f' := by
  induction h generalizing κ' with
  | settle _ r => exact .settle κ' r
  | panic _ p => exact .panic κ' p
  | never => exact .never κ'
  | ask hc h _ => exact .ask (hc.mono hκ) fun κ'' r r' hκ' hr => h κ'' r r' (hκ.trans hκ') hr
  | subscribe ht hl h _ =>
    exact .subscribe (hκ.ids _ _ _ ht) (hl.mono hκ) fun κ'' s s' hκ' hs => h κ'' s s' (hκ.trans hκ') hs
  | register ho hl _ ih => exact .register (hκ.ids _ _ _ ho) (hl.mono hκ) (ih hκ)
  | sleep ms hr _ ih => exact .sleep ms (hκ.reads _ hr) (ih hκ)
  | sleepUntil deadline hr _ ih => exact .sleepUntil deadline (hκ.reads _ hr) (ih hκ)
  | yield times _ ih => exact .yield times (ih hκ)
  | wait hs _ ih => exact .wait (hs.mono hκ) (ih hκ)

/-- One action after another. -/
theorem Action.Matches.bind {α β α' β' : Type} {Q : Counterparts → α → β → Prop} {Q' : Counterparts → α' → β' → Prop}
    {κ : Counterparts} {a : Action α} {b : Action β} {f : α → Action α'} {g : β → Action β'} (h : a.Matches Q κ b)
    (hf : ∀ κ' x y, κ.Sub κ' → Q κ' x y → (f x).Matches Q' κ' (g y)) : (a.bind f).Matches Q' κ (b.bind g) := by
  induction h with
  | pure h => exact hf _ _ _ (.refl _) h
  | panic _ p => exact .panic _ p
  | ask hc _ ih =>
    exact .ask hc fun κ' r r' hκ hr => ih κ' r r' hκ hr fun κ'' x y hκ' => hf κ'' x y (hκ.trans hκ')
  | subscribe ht hl _ ih =>
    exact .subscribe ht hl fun κ' s s' hκ hs => ih κ' s s' hκ hs fun κ'' x y hκ' => hf κ'' x y (hκ.trans hκ')
  | register ho hl _ ih => exact .register ho hl (ih hf)

/-! ## Worlds that are the same up to names -/

/-- Reactions that do the same. -/
inductive Reaction.Matches (κ : Counterparts) : Reaction → Reaction → Prop
  | call {l l' : Listener} (hl : l.Matches κ l') : Matches κ (.call l) (.call l')
  | forward {t t' : TokenId} (ht : κ.ids .token t t') : Matches κ (.forward t) (.forward t')
  | stop {o o' : OperationId} (ho : κ.ids .operation o o') : Matches κ (.stop o) (.stop o')

/-- Tokens on which the same stands. -/
structure Token.Matches (κ : Counterparts) (x x' : Token) : Prop where
  interrupted : x.interrupted = x'.interrupted
  nextKey : x.nextKey = x'.nextKey
  entries : List.Forall₂ (fun e e' => e.1 = e'.1 ∧ e.2.Matches κ e'.2) x.entries x'.entries

/-- Operations with the same hooks. Which task awaits them does not matter. -/
structure Operation.Matches (κ : Counterparts) (x x' : Operation) : Prop where
  fired : x.fired = x'.fired
  hooks : List.Forall₂ (Listener.Matches κ) x.hooks x'.hooks

/-- What goes by a name is the same. -/
def Kind.Matches (κ : Counterparts) : (k : Kind) → k.Entry → k.Entry → Prop
  | .token => Token.Matches κ
  | .operation => Operation.Matches κ
  | .cell => Eq

/-- What there is to be read in a slot is the same. -/
def Slot.Matches (κ : Counterparts) : (s : Slot) → s.Content → s.Content → Prop
  | .clock | .counter _ | .gate _ => Eq
  | .tokenName _ | .cancelName _ => Option.Rel (κ.ids .token)
  | .hooksName _ => Option.Rel (κ.ids .operation)
  | .subscriptionName _ => Option.Rel (Subscription.Matches κ)

/-- Two worlds in which all that the counterparts name is the same. -/
structure World.Matches (κ : Counterparts) (w w' : World) : Prop where
  entries : ∀ k a b, κ.ids k a b → ∃ x x', w.entry k a = some x ∧ w'.entry k b = some x' ∧ k.Matches κ x x'
  slots : ∀ s, κ.reads s → s.Matches κ (w.slot s) (w'.slot s)
  right_unique : ∀ k a b b', κ.ids k a b → κ.ids k a b' → b = b'
  left_unique : ∀ k a a' b, κ.ids k a b → κ.ids k a' b → a = a'

theorem Reaction.Matches.mono {κ κ' : Counterparts} (hκ : κ.Sub κ') {r r' : Reaction} (h : r.Matches κ r') :
    r.Matches κ' r' := by
  cases h with
  | call hl => exact .call (hl.mono hκ)
  | forward ht => exact .forward (hκ.ids _ _ _ ht)
  | stop ho => exact .stop (hκ.ids _ _ _ ho)

/-- Of two reactions that match, both are listeners that code has registered, or neither is. -/
theorem Reaction.Matches.isListener_eq {κ : Counterparts} {r r' : Reaction} (h : r.Matches κ r') :
    r.isListener = r'.isListener := by
  cases h <;> rfl

theorem Kind.Matches.mono {κ κ' : Counterparts} (hκ : κ.Sub κ') {k : Kind} {x x' : k.Entry} (h : k.Matches κ x x') :
    k.Matches κ' x x' := by
  cases k with
  | token => exact ⟨h.interrupted, h.nextKey, h.entries.imp fun _ _ he => ⟨he.1, he.2.mono hκ⟩⟩
  | operation => exact ⟨h.fired, h.hooks.imp fun _ _ hl => hl.mono hκ⟩
  | cell => exact h

theorem Slot.Matches.mono {κ κ' : Counterparts} (hκ : κ.Sub κ') {s : Slot} {x x' : s.Content} (h : s.Matches κ x x') :
    s.Matches κ' x x' := by
  cases s with
  | clock | counter | gate => exact h
  | tokenName | cancelName | hooksName => exact hκ.option h
  | subscriptionName => exact Subscription.Matches.mono_option hκ h

/-- What there is to be read in a slot without names is the same as itself. -/
theorem Slot.Plain.matches_self {s : Slot} (hs : s.Plain) (κ : Counterparts) (x : s.Content) : s.Matches κ x x := by
  cases s with
  | clock | counter | gate => exact Eq.refl x
  | tokenName | cancelName | hooksName | subscriptionName => exact hs.elim

namespace World.Matches

variable {κ : Counterparts} {w w' : World}

/-- Tokens that are counterparts exist, and the same stands on them. -/
theorem token (h : w.Matches κ w') {t t' : TokenId} (ht : κ.ids .token t t') :
    ∃ x x', w.tokens[t]? = some x ∧ w'.tokens[t']? = some x' ∧ x.Matches κ x' := h.entries .token t t' ht

/-- Operations that are counterparts exist, and have the same hooks. -/
theorem operation (h : w.Matches κ w') {o o' : OperationId} (ho : κ.ids .operation o o') :
    ∃ x x', w.operations[o]? = some x ∧ w'.operations[o']? = some x' ∧ x.Matches κ x' := h.entries .operation o o' ho

/-- Cells that are counterparts exist, and hold the same. -/
theorem cell (h : w.Matches κ w') {c c' : CellId} (hc : κ.ids .cell c c') :
    ∃ x, w.cells[c]? = some x ∧ w'.cells[c']? = some x := by
  obtain ⟨x, x', hx, hx', hxx⟩ := h.entries .cell c c' hc
  obtain rfl : x = x' := hxx
  exact ⟨x, hx, hx'⟩

/-- Tokens that are counterparts have tripped both, or neither has. -/
theorem isInterrupted_eq (h : w.Matches κ w') {t t' : TokenId} (ht : κ.ids .token t t') :
    w.isInterrupted t = w'.isInterrupted t' := by
  obtain ⟨x, x', hx, hx', hxx⟩ := h.token ht
  simp only [World.isInterrupted, hx, hx', Option.map_some, Option.getD_some, hxx.interrupted]

/-- Operations that are counterparts have been stopped both, or neither has. -/
theorem isFired_eq (h : w.Matches κ w') {o o' : OperationId} (ho : κ.ids .operation o o') :
    w.isFired o = w'.isFired o' := by
  obtain ⟨x, x', hx, hx', hxx⟩ := h.operation ho
  simp only [World.isFired, hx, hx', Option.map_some, Option.getD_some, hxx.fired]

/-- What is announced by signals that match has happened in both worlds, or in neither. -/
theorem hasHappened_eq (h : w.Matches κ w') {s s' : Signal} (hs : s.Matches κ s') : w.hasHappened s = w'.hasHappened s' := by
  cases hs with
  | gate hr => exact h.slots (.gate _) hr
  | token ht => exact h.isInterrupted_eq ht
  | task | tracker => rfl

end World.Matches

end Interruptible
