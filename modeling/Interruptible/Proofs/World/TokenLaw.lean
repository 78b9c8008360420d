import Mathlib.Data.List.Nodup
import Interruptible.Proofs.World.Deadlocks
import Interruptible.Proofs.World.TokenBook

/-!
# The law of tokens and listeners

Whatever calls are made on a token, by the runtime, by code, by listeners while the token trips, or when a closure is destroyed
that owns subscriptions, what happens to it obeys one law (`TokenLaw`, `token_law`). The latch trips once, when it is first asked
to, and everybody who asks sees it as it is. A reaction that is handed to a tripped token is refused and runs at once; every
other one has a key of its own and stands until its subscription is dropped. The trip invokes what stands then, in the order of
registration, and this is all that is ever invoked.

A call may wait for ever, since closures are destroyed under the lock of their token. The law holds of what has happened until
then, and of what happens later: the reactions that a call would have invoked had it returned are still due, and a subscription
that it was about to drop when it came to a lock still has its listener. Which drops return is told by
`Ownership.drop_returns_iff` and `Ownership.discard_returns_iff`.

The law follows from the rules by which the book of the token is kept: its latch, its entries and its keys account for what has
happened (`TokenBook.Run.latched`, `Run.entries`, `Run.keyed`), and what is due after the trip is what stood before it
(`Run.fires`).
-/

namespace Interruptible

namespace TokenEvent

/-- Whether an event drops the subscription under which a token holds a reaction. -/
def Drops (t : TokenId) (key : Nat) (r : Reaction) : TokenEvent → Prop
  | .dropped s => s = { token := t, key }
  | .withdrawn s => s = { token := t, key } ∧ r.isListener = true
  | _ => False

/-- What stands on a token after an event. -/
def standingAfter (t : TokenId) (held : List (Nat × Reaction)) : TokenEvent → List (Nat × Reaction)
  | .tripped u => if u = t then [] else held
  | .registered u r (some key) => if u = t then held ++ [(key, r)] else held
  | .dropped s => if s.token = t then held.filter (·.1 != s.key) else held
  | .withdrawn s => if s.token = t then held.filter fun e => e.1 != s.key || !e.2.isListener else held
  | _ => held

/-- What has been registered on a token, and neither dropped nor taken out by the trip since, in the order of registration. -/
def standing (t : TokenId) (es : List TokenEvent) : List (Nat × Reaction) := es.foldl (standingAfter t) []

/-- What is invoked by the trip of a token. -/
def fired? (t : TokenId) : TokenEvent → Option (Nat × Reaction)
  | .invoked u r (some key) => if u = t then some (key, r) else none
  | _ => none

/-- What has been invoked by the trip of a token, in this order. -/
def fired (t : TokenId) (es : List TokenEvent) : List (Nat × Reaction) := es.filterMap (fired? t)

/-- What may happen to a token, given what has happened before and what happens next. The first call trips the latch, nothing else
does, and it trips once; whoever asks sees the latch as it is. A token that has not tripped takes a reaction in, under a key of
its own; one that has tripped refuses it, and the reaction runs at once. Nothing is invoked before the trip, and nothing twice. -/
def Lawful (t : TokenId) (past : List TokenEvent) (next : Option TokenEvent) : TokenEvent → Prop
  | .called u => u = t → .tripped t ∈ past ∨ next = some (.tripped t)
  | .tripped u => u = t → past.getLast? = some (.called t) ∧ .tripped t ∉ past
  | .asked u answer => u = t → (answer = true ↔ .tripped t ∈ past)
  | .registered u _ (some key) => u = t → .tripped t ∉ past ∧ ∀ r', .registered t r' (some key) ∉ past
  | .registered u r none => u = t → .tripped t ∈ past ∧ next = some (.invoked t r none)
  | .invoked u _ (some key) => u = t → .tripped t ∈ past ∧ ∀ r', .invoked t r' (some key) ∉ past
  | .invoked u r none => u = t → past.getLast? = some (.registered t r none)
  | .dropped _ | .withdrawn _ => True

/-- What happens to a token is lawful, one thing after the other. -/
def AllLawful (t : TokenId) (es : List TokenEvent) : Prop :=
  ∀ past e rest, es = past ++ e :: rest → e.Lawful t past rest.head?

end TokenEvent

/-- The law of a token and what is registered with it, for what has happened to it since it was made, the world that this has
led to, and what it has given out and not invoked, since a call waits for ever. -/
structure TokenLaw (t : TokenId) (es : List TokenEvent) (w : World) (due : List (Nat × Reaction)) : Prop where
  lawful : TokenEvent.AllLawful t es
  /-- The latch stays as the trip leaves it. -/
  latched : w.isInterrupted t = true ↔ .tripped t ∈ es
  /-- The trip invokes all that stands then, in the order of registration, whatever happens meanwhile. -/
  fires : ∀ past rest, es = past ++ .tripped t :: rest → TokenEvent.fired t rest ++ due = TokenEvent.standing t past
  /-- A reaction that has been taken in is invoked, or due, just if the token trips before the subscription is dropped. -/
  invoked : ∀ past r key rest, es = past ++ .registered t r (some key) :: rest →
    (.invoked t r (some key) ∈ rest ∨ (key, r) ∈ due ↔
      ∃ mid later, rest = mid ++ .tripped t :: later ∧ ∀ e ∈ mid, ¬ e.Drops t key r)
  /-- The token holds what stands. -/
  holds : w.holds t = TokenEvent.standing t es

/-! ## The book obeys the law -/

namespace TokenEvent

variable {t : TokenId} {es more past rest : List TokenEvent} {e : TokenEvent}

/-- What stands after some events is told by what stood before the last of them. -/
theorem standing_append (t : TokenId) (es more : List TokenEvent) :
    standing t (es ++ more) = more.foldl (standingAfter t) (standing t es) := List.foldl_append

/-- What has been invoked in two parts is what has been invoked in each. -/
theorem fired_append (t : TokenId) (es more : List TokenEvent) : fired t (es ++ more) = fired t es ++ fired t more :=
  List.filterMap_append

/-- What happens to another token changes nothing in what stands. -/
theorem standingAfter_other (h : e.token ≠ t) (held : List (Nat × Reaction)) : standingAfter t held e = held := by
  cases e with
  | registered u r key => cases key <;> simp_all [standingAfter, token]
  | tripped u => exact if_neg h
  | dropped s => exact if_neg h
  | withdrawn s => exact if_neg h
  | _ => rfl

/-- What happens to another token invokes nothing. -/
theorem fired?_other (h : e.token ≠ t) : e.fired? t = none := by
  cases e with
  | invoked u r key => cases key <;> simp_all [fired?, token]
  | _ => rfl

/-- Where nothing has happened, nothing has been invoked. -/
@[simp] theorem fired_nil : fired t [] = [] := rfl

/-- What has been invoked is told from the first event on. -/
@[simp] theorem fired_cons : fired t (e :: es) = (e.fired? t).toList ++ fired t es := by
  rw [fired, List.filterMap_cons]
  cases e.fired? t <;> rfl

/-- What has been invoked by the trip is there among the events, and the other way round. -/
theorem mem_fired {key : Nat} {r : Reaction} : (key, r) ∈ fired t es ↔ .invoked t r (some key) ∈ es := by
  unfold fired
  rw [List.mem_filterMap]
  constructor
  · rintro ⟨e, he, hf⟩
    unfold fired? at hf
    split at hf
    · split at hf
      · rename_i hu
        obtain ⟨rfl, rfl⟩ := Prod.mk.inj (Option.some.inj hf)
        rwa [hu] at he
      · nomatch hf
    · nomatch hf
  · exact fun h => ⟨_, h, if_pos rfl⟩

/-- Something in one of two parts. -/
theorem append_eq_cases (h : es ++ more = past ++ e :: rest) :
    (∃ rest', es = past ++ e :: rest' ∧ rest = rest' ++ more) ∨ ∃ mid, past = es ++ mid ∧ more = mid ++ e :: rest := by
  rcases List.append_eq_append_iff.mp h with ⟨mid, hpast, hmore⟩ | ⟨rest', hes, hrest⟩
  · exact .inr ⟨mid, hpast, hmore⟩
  · cases rest' with
    | nil => exact .inr ⟨[], by simpa using hes.symm, hrest.symm⟩
    | cons e' rest' =>
      obtain ⟨rfl, rfl⟩ := List.cons.inj hrest
      exact .inl ⟨rest', hes, rfl⟩

/-- What is lawful stays so when more happens later. -/
theorem Lawful.append (h : e.Lawful t past rest.head?) (more : List TokenEvent) :
    e.Lawful t past (rest ++ more).head? := by
  have hnext {e' : TokenEvent} (h : rest.head? = some e') : (rest ++ more).head? = some e' := by
    rw [List.head?_append, h]
    rfl
  cases e with
  | called u => exact fun hu => (h hu).imp_right hnext
  | registered u r key =>
    cases key with
    | none => exact fun hu => ⟨(h hu).1, hnext (h hu).2⟩
    | some key => exact h
  | invoked u r key => cases key <;> exact h
  | _ => exact h

/-- Of two events, each is looked at with what comes before and after it. -/
theorem pair_eq_append {a b : TokenEvent} (h : [a, b] = past ++ e :: rest) :
    past = [] ∧ e = a ∧ rest = [b] ∨ past = [a] ∧ e = b ∧ rest = [] := by
  rcases past with _ | ⟨x, _ | ⟨y, past⟩⟩
  · simp_all
  · simp only [List.cons_append, List.nil_append, List.cons.injEq] at h
    exact .inr ⟨by rw [h.1], h.2.1.symm, h.2.2.symm⟩
  · simp at h

/-- What happens to another token is lawful. -/
theorem Lawful.other (h : e.token ≠ t) (past : List TokenEvent) (next : Option TokenEvent) : e.Lawful t past next := by
  cases e with
  | registered u r key => cases key <;> exact fun hu => absurd hu h
  | invoked u r key => cases key <;> exact fun hu => absurd hu h
  | dropped s => trivial
  | withdrawn s => trivial
  | _ => exact fun hu => absurd hu h

namespace AllLawful

theorem nil : AllLawful t [] := by
  intro past e rest h
  simp at h

/-- What happens is lawful if it is so part by part. -/
theorem append (h : AllLawful t es) (h' : ∀ mid e rest, more = mid ++ e :: rest → e.Lawful t (es ++ mid) rest.head?) :
    AllLawful t (es ++ more) := by
  intro past e rest heq
  rcases append_eq_cases heq with ⟨rest', hes, rfl⟩ | ⟨mid, rfl, hmore⟩
  · exact (h past e rest' hes).append more
  · exact h' mid e rest hmore

/-- A lawful event after lawful ones, whatever comes next. -/
theorem snoc (h : AllLawful t es) (he : e.Lawful t es none) : AllLawful t (es ++ [e]) := by
  refine h.append fun mid e' rest heq => ?_
  obtain ⟨rfl, rfl, rfl⟩ : mid = [] ∧ e' = e ∧ rest = [] := by cases mid <;> simp_all
  rwa [List.append_nil]

/-- Two events that belong together, after lawful ones. -/
theorem pair {a b : TokenEvent} (h : AllLawful t es) (ha : a.Lawful t es (some b)) (hb : b.Lawful t (es ++ [a]) none) :
    AllLawful t (es ++ [a, b]) := by
  refine h.append fun mid e rest heq => ?_
  rcases pair_eq_append heq with ⟨rfl, rfl, rfl⟩ | ⟨rfl, rfl, rfl⟩
  · rwa [List.append_nil]
  · exact hb

end AllLawful

end TokenEvent

namespace TokenBook

open TokenEvent (standing standingAfter fired)

variable {t : TokenId} {es es' : List TokenEvent} {b b' : TokenBook}

/-! ### What a step does to the book -/

/-- A step of a book changes the entries of the token as its events say. -/
theorem Step.entries (h : Step t b es b') : b'.token.entries = es.foldl (standingAfter t) b.token.entries := by
  cases h with
  | other he => exact (TokenEvent.standingAfter_other he _).symm
  | _ => simp [standingAfter]

/-- What is due to a token that has tripped is invoked, or stays due. -/
theorem Step.due (h : Step t b es b') (hb : b.token.interrupted = true) : fired t es ++ b'.due = b.due := by
  cases h with
  | other he => simp [TokenEvent.fired?_other he]
  | tripped hx => exact nomatch hb.symm.trans hx
  | _ => simp [TokenEvent.fired?]

/-- Once a token has tripped, what was due is what has been invoked since, followed by what is still due. -/
theorem Run.due (h : Run t b es b') (hb : b.token.interrupted = true) : fired t es ++ b'.due = b.due := by
  induction h with
  | nil => rfl
  | snoc h hs ih =>
    rw [TokenEvent.fired_append, List.append_assoc, hs.due (h.latched.mpr (.inl hb))]
    exact ih

/-- Nothing is invoked before a token has tripped. -/
theorem Step.quiet (h : Step t b es b') (hb : b.due = []) (hb' : b'.token.interrupted = false) :
    fired t es = [] ∧ b'.due = [] := by
  cases h with
  | other he => simp [TokenEvent.fired?_other he, hb]
  | tripped => nomatch hb'
  | invoked => nomatch hb
  | _ => simpa [TokenEvent.fired?] using hb

/-- A token trips when it is called, and what it holds becomes due. -/
theorem Step.trips (h : Step t b es b') (ht : .tripped t ∈ es) :
    es = [.called t, .tripped t] ∧ b'.due = b.token.entries := by
  cases h with
  | @other _ e he => exact absurd (by rw [← List.mem_singleton.mp ht]; rfl) he
  | tripped => exact ⟨rfl, rfl⟩
  | _ => simp at ht

/-- A reaction that is registered gets the next key. -/
theorem Step.nextKey (h : Step t b es b') :
    b'.token.nextKey = b.token.nextKey ∧ (∀ r key, .registered t r (some key) ∉ es) ∨
      b'.token.nextKey = b.token.nextKey + 1 ∧ ∃ r, es = [.registered t r (some b.token.nextKey)] := by
  cases h with
  | @other _ e he =>
    refine .inl ⟨rfl, fun r key hmem => he ?_⟩
    rw [← List.mem_singleton.mp hmem]
    rfl
  | registered => exact .inr ⟨rfl, _, rfl⟩
  | _ => exact .inl ⟨rfl, by simp⟩

/-- Different reactions have different keys, and all of these have been handed out. -/
def Keyed (held : List (Nat × Reaction)) (nextKey : Nat) : Prop :=
  (held.map (·.1)).Nodup ∧ ∀ x ∈ held, x.1 < nextKey

/-- Keys of some of the reactions are different, if those of all are. -/
theorem Keyed.sublist {held held' : List (Nat × Reaction)} {n : Nat} (h : Keyed held n) (hs : held'.Sublist held) :
    Keyed held' n :=
  ⟨h.1.sublist (hs.map _), fun x hx => h.2 x (hs.subset hx)⟩

/-- A reaction that is taken in under the next key has a key of its own. -/
theorem Keyed.snoc {held : List (Nat × Reaction)} {n : Nat} (h : Keyed held n) (r : Reaction) :
    Keyed (held ++ [(n, r)]) (n + 1) := by
  constructor
  · rw [List.map_append, List.nodup_append]
    refine ⟨h.1, List.nodup_singleton _, fun key hkey key' hkey' => ?_⟩
    obtain ⟨x, hx, rfl⟩ := List.mem_map.mp hkey
    obtain rfl : key' = n := by simpa using hkey'
    exact Nat.ne_of_lt (h.2 x hx)
  · intro x hx
    rcases List.mem_append.mp hx with hx | hx
    · exact Nat.lt_succ_of_lt (h.2 x hx)
    · rw [List.mem_singleton.mp hx]
      exact Nat.lt_succ_self n

/-- The reactions that have been invoked, are due or stand are told apart by their keys. -/
theorem Step.keyed (h : Step t b es b') {before : List (Nat × Reaction)}
    (hb : Keyed (before ++ (b.due ++ b.token.entries)) b.token.nextKey) :
    Keyed (before ++ (fired t es ++ (b'.due ++ b'.token.entries))) b'.token.nextKey := by
  cases h with
  | other he => simpa [TokenEvent.fired?_other he] using hb
  | registered => simpa [TokenEvent.fired?] using hb.snoc _
  | dropped => exact hb.sublist (.append_left (.append_left List.filter_sublist _) _)
  | withdrawn => exact hb.sublist (.append_left (.append_left List.filter_sublist _) _)
  | _ => simpa [TokenEvent.fired?] using hb

/-! ### What a run does to a new book -/

/-- What a token holds is what stands by its history. -/
theorem Run.entries (h : Run t {} es b) : b.token.entries = standing t es := by
  induction h with
  | nil => rfl
  | snoc _ hs ih => rw [hs.entries, ih, TokenEvent.standing_append]

/-- Before the trip nothing has been invoked, and nothing is due. -/
theorem Run.quiet (h : Run t {} es b) (hb : b.token.interrupted = false) : fired t es = [] ∧ b.due = [] := by
  induction h with
  | nil => exact ⟨rfl, rfl⟩
  | @snoc b' b'' _ _ _ hs ih =>
    have hb' : b'.token.interrupted = false := by
      by_contra hi
      exact nomatch (hs.latched.mpr (.inl (Bool.eq_true_of_not_eq_false hi))).symm.trans hb
    obtain ⟨hfired, hdue⟩ := ih hb'
    obtain ⟨hfired', hdue'⟩ := hs.quiet hdue hb
    exact ⟨by rw [TokenEvent.fired_append, hfired, hfired']; rfl, hdue'⟩

/-- A key that has been given to a reaction will not be given to another one. -/
theorem Run.issued (h : Run t {} es b) {r : Reaction} {key : Nat} (hr : .registered t r (some key) ∈ es) :
    key < b.token.nextKey := by
  induction h with
  | nil => nomatch hr
  | snoc _ hs ih =>
    rcases hs.nextKey with ⟨hnext, hnone⟩ | ⟨hnext, r', hone⟩ <;> rw [hnext]
    · exact ih ((List.mem_append.mp hr).resolve_right (hnone r key))
    · rcases List.mem_append.mp hr with hr | hr
      · exact Nat.lt_succ_of_lt (ih hr)
      · obtain ⟨-, hkey⟩ : r = r' ∧ key = _ := by simpa [hone] using hr
        exact Nat.lt_succ_of_le (Nat.le_of_eq hkey)

/-- What has been invoked, what is due and what is held have different keys. -/
theorem Run.keyed (h : Run t {} es b) : Keyed (fired t es ++ (b.due ++ b.token.entries)) b.token.nextKey := by
  induction h with
  | nil => exact ⟨.nil, nofun⟩
  | snoc _ hs ih =>
    rw [TokenEvent.fired_append, List.append_assoc]
    exact hs.keyed ih

/-- What is due and what has been invoked is what stood at the trip. -/
theorem Run.fires (h : Run t {} es b) {past rest : List TokenEvent} (hes : es = past ++ .tripped t :: rest) :
    fired t rest ++ b.due = standing t past := by
  induction h generalizing past rest with
  | nil => simp at hes
  | @snoc b' b'' es₁ es₂ hrun hs ih =>
    rcases TokenEvent.append_eq_cases hes with ⟨rest', rfl, rfl⟩ | ⟨mid, rfl, hmid⟩
    · have hb' : b'.token.interrupted = true := hrun.latched.mpr (.inr (by simp))
      rw [TokenEvent.fired_append, List.append_assoc, hs.due hb']
      exact ih rfl
    · obtain ⟨rfl, hdue⟩ := hs.trips (by rw [hmid]; simp)
      obtain ⟨rfl, rfl⟩ : mid = [.called t] ∧ rest = [] := by
        rcases TokenEvent.pair_eq_append hmid with ⟨-, he, -⟩ | ⟨hpast, -, hrest⟩
        · nomatch he
        · exact ⟨hpast, hrest⟩
      rw [hdue, TokenEvent.standing_append]
      exact hrun.entries

/-! ### What happens by the book is lawful -/

/-- What happens in a step is lawful, and so is all that has happened before. -/
theorem Step.lawful (h : Step t b es' b') (hrun : Run t {} es b) (hes : TokenEvent.AllLawful t es) :
    TokenEvent.AllLawful t (es ++ es') := by
  have htripped : b.token.interrupted = true ↔ .tripped t ∈ es := by simp [hrun.latched]
  cases h with
  | other he => exact hes.snoc (.other he _ _)
  | asked => exact hes.snoc fun _ => htripped
  | again hb => exact hes.snoc fun _ => .inl (htripped.mp hb)
  | tripped hx =>
    refine hes.pair (fun _ => .inr rfl) fun _ => ⟨List.getLast?_concat, ?_⟩
    simpa [hx] using htripped
  | registered hx =>
    refine hes.snoc fun _ => ⟨by simpa [hx] using htripped, fun r' hr' => ?_⟩
    exact absurd (hrun.issued hr') (Nat.lt_irrefl _)
  | late hb => exact hes.pair (fun _ => ⟨htripped.mp hb, rfl⟩) fun _ => List.getLast?_concat
  | dropped => exact hes.snoc trivial
  | withdrawn => exact hes.snoc trivial
  | @invoked x key r due =>
    refine hes.snoc fun _ => ⟨htripped.mp ?_, fun r' hr' => ?_⟩
    · by_contra hi
      nomatch (hrun.quiet (Bool.eq_false_iff.mpr hi)).2
    · have hnodup := hrun.keyed.1
      rw [List.map_append, List.nodup_append] at hnodup
      exact hnodup.2.2 key (List.mem_map_of_mem (f := (·.1)) (TokenEvent.mem_fired.mpr hr')) key (by simp) rfl

/-- The history of a token is lawful. The induction is on its book, and each step adds lawful events. -/
theorem Run.lawful (h : Run t {} es b) : TokenEvent.AllLawful t es := by
  induction h with
  | nil => exact TokenEvent.AllLawful.nil
  | snoc hrun hs ih => exact hs.lawful hrun ih

end TokenBook

/-! ## The law -/

namespace TokenEvent

variable {t : TokenId} {es : List TokenEvent} {key : Nat} {r : Reaction}

/-- What stands after an event has been registered by it, or stood before and has been neither dropped nor given out. -/
theorem mem_standingAfter {held : List (Nat × Reaction)} {e : TokenEvent} :
    (key, r) ∈ standingAfter t held e ↔
      e = .registered t r (some key) ∨ (key, r) ∈ held ∧ ¬ e.Drops t key r ∧ e ≠ .tripped t := by
  cases e with
  | registered u r' key' => cases key' <;> grind [standingAfter, Drops]
  | tripped u => by_cases hu : u = t <;> simp [standingAfter, Drops, hu]
  | dropped s => grind [standingAfter, Drops, Subscription]
  | withdrawn s => grind [standingAfter, Drops, Subscription]
  | _ => simp [standingAfter, Drops]

/-- What stands has been registered, and neither dropped nor taken out by the trip since. -/
theorem mem_standing :
    (key, r) ∈ standing t es ↔
      ∃ past rest, es = past ++ .registered t r (some key) :: rest ∧ ∀ e ∈ rest, ¬ e.Drops t key r ∧ e ≠ .tripped t := by
  induction es using List.reverseRecOn with
  | nil => simp [standing]
  | append_singleton es e ih =>
    rw [standing_append, List.foldl_cons, List.foldl_nil, mem_standingAfter, ih]
    constructor
    · rintro (rfl | ⟨⟨past, rest, rfl, hrest⟩, he⟩)
      · exact ⟨es, [], rfl, nofun⟩
      · refine ⟨past, rest ++ [e], by simp, fun e' he' => ?_⟩
        rcases List.mem_append.mp he' with he' | he'
        · exact hrest e' he'
        · rwa [List.mem_singleton.mp he']
    · rintro ⟨past, rest, hes, hrest⟩
      rcases append_eq_cases hes with ⟨rest', rfl, rfl⟩ | ⟨mid, rfl, hmid⟩
      · exact .inr ⟨⟨past, rest', rfl, fun e' he' => hrest e' (List.mem_append_left _ he')⟩, hrest e (by simp)⟩
      · exact .inl (by cases mid <;> simp_all)

/-- A key is handed out once. -/
theorem AllLawful.registered_once (h : AllLawful t es) {past past' rest rest' : List TokenEvent} {r' : Reaction}
    (hes : es = past ++ .registered t r (some key) :: rest) (hes' : es = past' ++ .registered t r' (some key) :: rest') :
    past = past' ∧ r = r' ∧ rest = rest' := by
  have hfresh := (h _ _ _ hes rfl).2 r'
  have hfresh' := (h _ _ _ hes' rfl).2 r
  rw [hes] at hes'
  rcases append_eq_cases hes' with ⟨_, rfl, -⟩ | ⟨mid, rfl, hmid⟩
  · exact absurd (by simp) hfresh
  · cases mid with
    | nil =>
      obtain ⟨heq, rfl⟩ := List.cons.inj hmid
      exact ⟨(List.append_nil _).symm, (registered.inj heq).2.1, rfl⟩
    | cons e mid =>
      obtain ⟨rfl, -⟩ := List.cons.inj hmid
      exact absurd (by simp) hfresh'

/-- The trip comes between a registration and what is invoked by it. -/
theorem AllLawful.tripped_between (h : AllLawful t es) {past rest : List TokenEvent} {r' : Reaction}
    (hes : es = past ++ .registered t r (some key) :: rest) (hr : .invoked t r' (some key) ∈ rest) :
    ∃ mid later, rest = mid ++ .tripped t :: later ∧ .invoked t r' (some key) ∈ later := by
  obtain ⟨before, after, rfl⟩ := List.append_of_mem hr
  have hbefore : .tripped t ∈ before := by
    have hmem := (h (past ++ .registered t r (some key) :: before) (.invoked t r' (some key)) after (by simp [hes]) rfl).1
    have hnot := (h _ _ _ hes rfl).1
    simpa [hnot] using hmem
  obtain ⟨mid, later, rfl⟩ := List.append_of_mem hbefore
  exact ⟨mid, later ++ .invoked t r' (some key) :: after, by simp, by simp⟩

/-- A reaction that has been taken in is invoked, or due, just if the trip comes before its subscription is dropped. -/
theorem AllLawful.invoked_iff (h : AllLawful t es) {due : List (Nat × Reaction)}
    (hfires : ∀ past rest, es = past ++ .tripped t :: rest → fired t rest ++ due = standing t past)
    (hdue : due ≠ [] → .tripped t ∈ es) {past rest : List TokenEvent} (hes : es = past ++ .registered t r (some key) :: rest) :
    .invoked t r (some key) ∈ rest ∨ (key, r) ∈ due ↔
      ∃ mid later, rest = mid ++ .tripped t :: later ∧ ∀ e ∈ mid, ¬ e.Drops t key r := by
  have hsplit {mid later : List TokenEvent} (hrest : rest = mid ++ .tripped t :: later) :
      es = (past ++ .registered t r (some key) :: mid) ++ .tripped t :: later := by simp [hes, hrest]
  constructor
  · intro hr
    obtain ⟨before, later, hes', hmem⟩ : ∃ before later, es = before ++ .tripped t :: later ∧
        (key, r) ∈ fired t later ++ due := by
      rcases hr with hr | hr
      · obtain ⟨mid, later, hrest, hlater⟩ := h.tripped_between hes hr
        exact ⟨_, later, hsplit hrest, List.mem_append_left _ (mem_fired.mpr hlater)⟩
      · obtain ⟨before, later, hes'⟩ := List.append_of_mem (hdue (List.ne_nil_of_mem hr))
        exact ⟨before, later, hes', List.mem_append_right _ hr⟩
    rw [hfires _ _ hes', mem_standing] at hmem
    obtain ⟨past', mid, rfl, hmid⟩ := hmem
    have hes'' : es = past' ++ .registered t r (some key) :: (mid ++ .tripped t :: later) := by rw [hes']; simp
    obtain ⟨-, -, hrest⟩ := h.registered_once hes hes''
    exact ⟨mid, later, hrest, fun e he => (hmid e he).1⟩
  · rintro ⟨mid, later, hrest, hmid⟩
    have hes' := hsplit hrest
    have honce := (h _ _ _ hes' rfl).2
    have hstood : (key, r) ∈ standing t (past ++ .registered t r (some key) :: mid) := by
      refine mem_standing.mpr ⟨past, mid, rfl, fun e he => ⟨hmid e he, fun heq => honce ?_⟩⟩
      rw [← heq]
      simp [he]
    rw [← hfires _ _ hes', List.mem_append, mem_fired] at hstood
    refine hstood.imp_left fun hlater => ?_
    rw [hrest]
    exact List.mem_append_right _ (List.mem_cons_of_mem _ hlater)

end TokenEvent

/-! ## One call after another -/

namespace Passage

variable (own : Ownership)

/-- The course of the call that is made after some others. -/
def courseAfter (s : Passage) (past : List TokenCall) (c : TokenCall) : Course Unit :=
  c.course own (s.afterAll own past).held (s.afterAll own past).world

/-- A token has tripped in the course of a call, and the call waits for ever. -/
def BreaksOff (t : TokenId) (s : Passage) (calls : List TokenCall) : Prop :=
  ∃ past c rest, calls = past ++ c :: rest ∧ .tripped t ∈ (s.courseAfter own past c).events ∧
    ¬ (s.courseAfter own past c).Returns

variable {own : Ownership} {t : TokenId} {s : Passage} {calls : List TokenCall} {c : TokenCall} {b : TokenBook}

/-- What has broken off stays broken off, whatever is called after it. -/
theorem BreaksOff.snoc (h : s.BreaksOff own t calls) (c : TokenCall) : s.BreaksOff own t (calls ++ [c]) := by
  obtain ⟨past, c', rest, rfl, htripped, hstuck⟩ := h
  exact ⟨past, c', rest ++ [c], by simp, htripped, hstuck⟩

end Passage

/-! ## The law -/

/-- The book of a token that has been kept since it was made shows that it obeys the law. -/
theorem World.Shows.law {t : TokenId} {es : List TokenEvent} {w : World} {b : TokenBook} (hb : w.Shows t b)
    (hrun : TokenBook.Run t {} es b) : TokenLaw t es w b.due where
  lawful := hrun.lawful
  latched := by
    have hi : w.isInterrupted t = b.token.interrupted := by simp [isInterrupted, hb.token]
    rw [hi, hrun.latched]
    simp
  fires _ _ := hrun.fires
  invoked _ _ _ _ := by
    refine hrun.lawful.invoked_iff (fun _ _ => hrun.fires) fun hdue => ?_
    have hi : b.token.interrupted = true := by
      by_contra hi
      exact hdue (hb.due (Bool.eq_false_of_not_eq_true hi))
    simpa using hrun.latched.mp hi
  holds := by
    rw [← hrun.entries, World.holds, hb.token]
    rfl

end Interruptible
