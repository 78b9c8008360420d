import Interruptible.Proofs.World.Holding
import Interruptible.Proofs.World.Events
import Interruptible.Proofs.World.Closures

/-!
# The book of a token

The book of a token holds its state, and what it has given out when it tripped and has not yet invoked (`TokenBook`). What may
happen to the token is a matter of its book (`TokenBook.Step`). Code keeps the books of all tokens by these rules, also when its
closures own subscriptions and when it waits for ever: listeners that run while a token trips, the trips that follow from a trip
(`World.tripCourse_keeps`), actions (`Action.course_keeps`), and calls from outside (`TokenCall.course_notes`). What code does
whose closures own nothing is a special case (`Action.run_keeps`, `TokenCall.runAll_shows`).
-/

namespace Interruptible

/-- The book that is kept of a token: its state, and what it has given out and has not yet invoked. -/
structure TokenBook where
  token : Token := {}
  due : List (Nat × Reaction) := []

/-- What may happen to a token by its book, alone or together, and the book after that. -/
inductive TokenBook.Step (t : TokenId) : TokenBook → List TokenEvent → TokenBook → Prop
  | other {b e} (he : e.token ≠ t) : Step t b [e] b
  | asked {b} : Step t b [.asked t b.token.interrupted] b
  | again {b} (hb : b.token.interrupted = true) : Step t b [.called t] b
  | tripped {x : Token} (hx : x.interrupted = false) :
    Step t ⟨x, []⟩ [.called t, .tripped t] ⟨{ x with interrupted := true, entries := [] }, x.entries⟩
  | registered {x : Token} {due r} (hx : x.interrupted = false) :
    Step t ⟨x, due⟩ [.registered t r (some x.nextKey)]
      ⟨{ x with nextKey := x.nextKey + 1, entries := x.entries ++ [(x.nextKey, r)] }, due⟩
  | late {b r} (hb : b.token.interrupted = true) : Step t b [.registered t r none, .invoked t r none] b
  | dropped {x : Token} {due key} :
    Step t ⟨x, due⟩ [.dropped ⟨t, key⟩] ⟨{ x with entries := x.entries.filter (·.1 != key) }, due⟩
  | withdrawn {x : Token} {due key} :
    Step t ⟨x, due⟩ [.withdrawn ⟨t, key⟩]
      ⟨{ x with entries := x.entries.filter fun e => e.1 != key || !e.2.isListener }, due⟩
  | invoked {x : Token} {key r due} : Step t ⟨x, (key, r) :: due⟩ [.invoked t r (some key)] ⟨x, due⟩

/-- A book that is kept through what happens. -/
inductive TokenBook.Run (t : TokenId) : TokenBook → List TokenEvent → TokenBook → Prop
  | nil {b} : Run t b [] b
  | snoc {b b' b'' es es'} (h : Run t b es b') (h' : Step t b' es' b'') : Run t b (es ++ es') b''

namespace TokenBook

variable {t : TokenId} {b b' b'' : TokenBook} {es es' : List TokenEvent}

/-- One step of a book is a run. -/
theorem Step.run (h : Step t b es b') : Run t b es b' := .snoc .nil h

theorem Run.trans (h : Run t b es b') (h' : Run t b' es' b'') : Run t b (es ++ es') b'' := by
  induction h' with
  | nil => rwa [List.append_nil]
  | snoc _ hs ih =>
    rw [← List.append_assoc]
    exact ih.snoc hs

/-- What happens to other tokens leaves the book as it is. -/
theorem Run.others (h : ∀ e ∈ es, e.token ≠ t) : Run t b es b := by
  induction es with
  | nil => exact .nil
  | cons e es ih =>
    rw [List.forall_mem_cons] at h
    exact (Step.other h.1).run.trans (ih h.2)

/-- A step finds the token tripped afterwards exactly if it was so before, or if this is what happens. -/
theorem Step.latched (h : Step t b es b') :
    b'.token.interrupted = true ↔ b.token.interrupted = true ∨ .tripped t ∈ es := by
  cases h with
  | @other _ e he =>
    have hne : TokenEvent.tripped t ≠ e := fun h => he (by rw [← h]; rfl)
    simp [hne]
  | _ => simp

/-- A token is tripped after a run exactly if it was so before, or if it was tripped in the course of it. -/
theorem Run.latched (h : Run t b es b') :
    b'.token.interrupted = true ↔ b.token.interrupted = true ∨ .tripped t ∈ es := by
  induction h with
  | nil => simp
  | snoc _ hs ih => rw [hs.latched, ih, List.mem_append, or_assoc]

end TokenBook

/-! ## Code keeps the book -/

namespace World

variable {n : Nat} {t : TokenId} {w w' w₁ w₂ w₃ : World} {es es' : List TokenEvent} {b : TokenBook}

/-- What a book says of a token in a world. Nothing is due before the token has tripped. -/
structure Shows (w : World) (t : TokenId) (b : TokenBook) : Prop where
  token : w.tokens[t]? = some b.token
  due : b.token.interrupted = false → b.due = []

/-- The book of a token is kept, whatever is due, in a world where fewer than `n` tokens are left to be tripped. -/
def Keeps (n : Nat) (t : TokenId) (w : World) (es : List TokenEvent) (w' : World) : Prop :=
  w.untripped < n → w'.untripped ≤ w.untripped ∧
    ∀ b, w.Shows t b → ∃ x, w'.Shows t ⟨x, b.due⟩ ∧ b.Run t es ⟨x, b.due⟩

namespace Keeps

/-- The tokens stay as they are, and what happens leaves the book as it is. -/
theorem steady (ht : w'.tokens = w.tokens) (hes : ∀ b, w.Shows t b → b.Run t es b) : Keeps n t w es w' := by
  intro _
  refine ⟨untripped_le (by rw [ht]) fun s h => by simpa only [isInterrupted, ht] using h, fun b hb => ?_⟩
  refine ⟨b.token, ⟨?_, hb.due⟩, hes b hb⟩
  rw [ht]
  exact hb.token

theorem nil (ht : w'.tokens = w.tokens) : Keeps n t w [] w' := steady ht fun _ _ => .nil

/-- Something happens to other tokens. -/
theorem others (ht : w'.tokens = w.tokens) (he : ∀ e ∈ es, e.token ≠ t) : Keeps n t w es w' :=
  steady ht fun _ _ => .others he

theorem refl (w : World) : Keeps n t w [] w := nil rfl

/-- A token is changed, but not tripped. -/
theorem modifyToken {u : TokenId} {f : Token → Token} (hf : ∀ x, (f x).interrupted = x.interrupted)
    (hother : ∀ e ∈ es, e.token = u)
    (hsame : u = t → ∀ x due, w.tokens[t]? = some x → TokenBook.Run t ⟨x, due⟩ es ⟨f x, due⟩) :
    Keeps n t w es (w.modifyToken u f) := by
  intro _
  have hi (s : TokenId) := isInterrupted_modifyToken_of_eq w u s hf
  refine ⟨untripped_le (by simp [World.modifyToken]) fun s h => by rwa [hi], fun b hb => ?_⟩
  obtain ⟨x, due⟩ := b
  have hx := getElem?_modifyToken w u t f
  rw [hb.token] at hx
  by_cases hu : u = t
  · rw [if_pos hu] at hx
    exact ⟨f x, ⟨hx, fun h => hb.due ((hf x).symm.trans h)⟩, hsame hu x due hb.token⟩
  · rw [if_neg hu] at hx
    exact ⟨x, ⟨hx, hb.due⟩, .others fun e he => (hother e he).trans_ne hu⟩

/-- A token takes a reaction in. -/
theorem registered {u : TokenId} {r : Reaction} {s : Subscription} (h : w.subscribe u r = (some s, w')) :
    Keeps n t w [.registered u r (some s.key)] w' := by
  rcases subscribe_cases w u r with hs | ⟨token, htoken, hi, hs⟩ <;> rw [hs] at h
  · nomatch h
  · obtain ⟨rfl, rfl⟩ : { token := u, key := token.nextKey } = s ∧ _ := by simpa using h
    refine .modifyToken (fun _ => rfl) (by simp [TokenEvent.token]) fun hu x due hx => ?_
    subst hu
    obtain rfl : token = x := Option.some.inj (htoken.symm.trans hx)
    exact (TokenBook.Step.registered hi).run

/-- A token that has been tripped refuses a reaction. -/
theorem late {u : TokenId} {r : Reaction} (h : w.subscribe u r = (none, w')) :
    Keeps n t w [.registered u r none, .invoked u r none] w' := by
  unfold World.subscribe at h
  split at h
  · rename_i hnone
    obtain rfl : w = w' := (Prod.mk.inj h).2
    refine .steady rfl fun b hb => ?_
    have hu : u ≠ t := fun hu => by rw [hu, hb.token] at hnone; cases hnone
    exact .others (by simpa [TokenEvent.token] using hu)
  · rename_i token htoken
    split at h
    · rename_i hi
      obtain rfl : w = w' := (Prod.mk.inj h).2
      refine .steady rfl fun b hb => ?_
      by_cases hu : u = t
      · subst hu
        obtain rfl : token = b.token := Option.some.inj (htoken.symm.trans hb.token)
        exact (TokenBook.Step.late hi).run
      · exact .others (by simpa [TokenEvent.token] using hu)
    · nomatch h

/-- What code drops is written down as withdrawn. -/
theorem withdrawn (w : World) (s : Subscription) : Keeps n t w [.withdrawn s] (w.withdraw s) := by
  refine .modifyToken (fun _ => rfl) (by simp [TokenEvent.token]) fun hs x due _ => ?_
  obtain ⟨_, key⟩ := s
  subst hs
  exact TokenBook.Step.withdrawn.run

/-- What the runtime drops is written down as dropped. -/
theorem dropped (w : World) (s : Subscription) : Keeps n t w [.dropped s] (w.unsubscribe s) := by
  refine .modifyToken (fun _ => rfl) (by simp [TokenEvent.token]) fun hs x due _ => ?_
  obtain ⟨_, key⟩ := s
  subst hs
  exact TokenBook.Step.dropped.run

/-- A question about a token is answered from its book. -/
theorem asked (w : World) (u : TokenId) : Keeps n t w [.asked u (w.isInterrupted u)] w := by
  refine .steady rfl fun b hb => ?_
  by_cases hu : u = t
  · subst hu
    have hi : w.isInterrupted u = b.token.interrupted := by simp [isInterrupted, hb.token]
    rw [hi]
    exact TokenBook.Step.asked.run
  · exact .others (by simpa [TokenEvent.token] using hu)

end Keeps

/-- Hooks are kept by operations, and tokens know nothing of them. -/
theorem addHook_tokens (w : World) (op : OperationId) (l : Listener) : (w.addHook op l).2.tokens = w.tokens := by
  unfold addHook
  split <;> rfl

end World

/-! ### Courses -/

/-- The book of a token is kept in the course that code takes, and tells what is due if the code returns. -/
def Course.Notes {α : Type} (t : TokenId) (b : TokenBook) (c : Course α) (due : List (Nat × Reaction)) : Prop :=
  ∃ b', c.world.Shows t b' ∧ b.Run t c.events b' ∧ (c.Returns → b'.due = due)

/-- The book of a token is kept, whatever is due, in a world where fewer than `n` tokens are left to be tripped. -/
def Course.Keeps {α : Type} (n : Nat) (t : TokenId) (w : World) (c : Course α) : Prop :=
  w.untripped < n → c.world.untripped ≤ w.untripped ∧ ∀ b, w.Shows t b → c.Notes t b b.due

namespace Course

variable {α β : Type} {n : Nat} {t : TokenId} {w v : World} {es : List TokenEvent} {c : Course α} {f : α → World → Course β}
  {b : TokenBook} {due due' : List (Nat × Reaction)}

/-- The notes of two things that are done one after the other are those of the first one, then those of the second one. -/
theorem Notes.andThen (h : c.Notes t b due)
    (hf : ∀ a b', c.upshot = .returned a → c.world.Shows t b' → b.Run t c.events b' → b'.due = due →
      (f a c.world).Notes t b' due') : (c.andThen f).Notes t b due' := by
  obtain ⟨b', hb', hes, hdue⟩ := h
  cases hend : c.upshot with
  | stuck held =>
    rw [andThen_of_stuck hend]
    exact ⟨b', hb', hes, fun ⟨_, ha⟩ => nomatch ha⟩
  | returned a =>
    rw [andThen_of_returned hend]
    obtain ⟨b'', hb'', hes', hdue'⟩ := hf a b' hend hb' hes (hdue ⟨a, hend⟩)
    exact ⟨b'', hb'', hes.trans hes', hdue'⟩

/-- Two things done one after the other leave no more tokens to be tripped if neither of them does. -/
theorem untripped_andThen_le (h : c.world.untripped ≤ w.untripped)
    (hf : ∀ a, (f a c.world).world.untripped ≤ c.world.untripped) : (c.andThen f).world.untripped ≤ w.untripped := by
  cases hend : c.upshot with
  | stuck held =>
    rw [andThen_of_stuck hend]
    exact h
  | returned a =>
    rw [andThen_of_returned hend]
    exact (hf a).trans h

/-- What happens at once and keeps the book keeps it as a course. -/
theorem Keeps.step (h : World.Keeps n t w es v) (a : α) : (Course.step es a v).Keeps n t w := by
  intro hn
  obtain ⟨hle, hrun⟩ := h hn
  refine ⟨hle, fun b hb => ?_⟩
  obtain ⟨x, hx, hes⟩ := hrun b hb
  exact ⟨⟨x, b.due⟩, hx, hes, fun _ => rfl⟩

/-- The course of what happens at once keeps the book as that does. -/
theorem Keeps.of_step {a : α} (h : c.Keeps n t w) (hc : c = .step es a v) : World.Keeps n t w es v := by
  subst hc
  intro hn
  obtain ⟨hle, hrun⟩ := h hn
  refine ⟨hle, fun b hb => ?_⟩
  obtain ⟨⟨x, due⟩, hx, hes, hdue⟩ := hrun b hb
  obtain rfl : due = b.due := hdue ⟨a, rfl⟩
  exact ⟨x, hx, hes⟩

/-- Code that waits for a lock writes nothing down. -/
theorem Keeps.wait (held : List TokenId) (w : World) : (Course.wait held w : Course α).Keeps n t w :=
  fun _ => ⟨Nat.le_refl _, fun b hb => ⟨b, hb, .nil, fun _ => rfl⟩⟩

/-- Two things keep the book one after the other if each of them does. -/
theorem Keeps.andThen (h : c.Keeps n t w) (hf : ∀ a v, (f a v).Keeps n t v) : (c.andThen f).Keeps n t w := by
  intro hn
  obtain ⟨hle, hrun⟩ := h hn
  have hnext (a : α) := hf a c.world (Nat.lt_of_le_of_lt hle hn)
  refine ⟨untripped_andThen_le hle fun a => (hnext a).1, fun b hb => (hrun b hb).andThen fun a b' _ hb' _ hdue => ?_⟩
  rw [← hdue]
  exact (hnext a).2 b' hb'

/-- Something that is no matter of tokens comes first. -/
theorem Keeps.after (h : c.Keeps n t v) (hv : v.tokens = w.tokens) : c.Keeps n t w := by
  have hsame : v.untripped = w.untripped := by
    unfold World.untripped World.isInterrupted
    rw [hv]
  intro hn
  rw [← hsame] at hn ⊢
  obtain ⟨hle, hrun⟩ := h hn
  exact ⟨hle, fun b hb => hrun b ⟨by rw [hv, hb.token], hb.due⟩⟩

/-- Something that is no matter of tokens comes last. -/
theorem Keeps.quietly (h : c.Keeps n t w) {g : World → World} (hg : ∀ v, (g v).tokens = v.tokens) (b : β) :
    (c.andThen fun _ v => Course.step [] b (g v)).Keeps n t w :=
  h.andThen fun _ v => .step (.nil (hg v)) b

/-- What is done for one thing after the other keeps the book if it does for each of them. -/
theorem Keeps.each {run : β → World → Course Unit} (h : ∀ x w, (run x w).Keeps n t w) (xs : List β) (w : World) :
    (Course.each run xs w).Keeps n t w := by
  induction xs generalizing w with
  | nil => exact .step (.refl w) ()
  | cons x xs ih => exact (h x w).andThen fun _ v => ih v

/-- A panic of a listener is noted, and nothing happens by that. -/
theorem Keeps.noted {c : Course (Option Panic)} (h : c.Keeps n t w) : c.noted.Keeps n t w := by
  refine h.andThen fun p v => ?_
  cases p with
  | none => exact .step (.refl v) ()
  | some p =>
    refine Keeps.step (v := v.record (.listenerPanicked p)) (.nil ?_) ()
    rfl

end Course

section

variable (own : Ownership) (held : List TokenId) {n : Nat} {t : TokenId}

/-- The book is kept while code drops a subscription with all that its closure owns. -/
theorem Ownership.discard_keeps (k : Nat) (held : List TokenId) (s : Subscription) (w : World) :
    (own.discard k held s w).Keeps n t w := by
  induction k generalizing held s w with
  | zero => exact .step (.refl w) ()
  | succ k ih =>
    unfold discard
    split
    · exact .wait held w
    · exact (Course.Keeps.step (.withdrawn w s) ()).andThen fun _ v => .each (fun x u => ih _ x u) _ v

/-- The book is kept while the runtime drops a subscription with all that its closure owns. -/
theorem Ownership.drop_keeps (s : Subscription) (w : World) : (own.drop held s w).Keeps n t w := by
  unfold drop
  split
  · exact .wait held w
  · exact (Course.Keeps.step (.dropped w s) ()).andThen fun _ v => .each (fun x u => own.discard_keeps _ _ x u) _ v

/-- The book is kept while a reaction is handed to a token, if carrying it out keeps it. -/
theorem World.handCourse_keeps {u : TokenId} {r : Reaction} {late : World → Course Unit}
    (hl : ∀ w, (late w).Keeps n t w) (w : World) : (w.handCourse held u r late).Keeps n t w := by
  unfold handCourse
  split
  · exact .wait held w
  · rcases h : w.subscribe u r with ⟨_ | s, w'⟩
    · exact (Course.Keeps.step (.late h) ()).andThen fun _ v => (hl v).quietly (fun _ => rfl) none
    · exact .step (.registered h) _

section

variable {trip : TripCourse} (ht : ∀ u w, (trip u w).Keeps n t w)

include ht

/-- The book is kept while a command is answered. -/
theorem Command.course_keeps (c : Command) (w : World) : (c.course own held trip w).Keeps n t w := by
  cases c with
  | interrupt u => exact ht u w
  | isInterrupted u => exact .step (.asked w u) _
  | link parent child => exact w.handCourse_keeps held (ht child)
  | unsubscribe s => exact own.discard_keeps _ held s w
  | openGate g => exact .step (.nil (World.Steady.openGate w g).tokens) _
  | _ =>
    refine Course.Keeps.step (.nil ?_) _
    rfl

/-- The book is kept in the course of a listener, up to its end or its panic. -/
theorem Listener.course_keeps (l : Listener) (w : World) : (l.course own held trip w).Keeps n t w := by
  induction l generalizing w with
  | done => exact .step (.refl w) none
  | panic p => exact .step (.refl w) (some p)
  | ask c next ih => exact (c.course_keeps own held ht w).andThen fun r v => ih r v
  | subscribe u l next ihl ihn =>
    exact (w.handCourse_keeps held fun v => (ihl v).noted).andThen fun s v => ihn s v
  | register op l next ihl ihn =>
    have ha := w.addHook_tokens op l
    simp only [Listener.course]
    rcases h : w.addHook op l with ⟨_ | _, w'⟩ <;> rw [h] at ha
    · exact ((ihl w').noted.andThen fun _ v => ihn v).after ha
    · exact (ihn w').after ha

/-- The book is kept while a reaction is carried out. -/
theorem Reaction.course_keeps (r : Reaction) (w : World) : (r.course own held trip w).Keeps n t w := by
  cases r with
  | call l => exact (l.course_keeps own held ht w).noted
  | forward child => exact ht child w
  | stop op =>
    have hhooks := Course.Keeps.each (fun (l : Listener) w => (l.course_keeps own held ht w).noted)
      (w.takeHooks op).1 (w.takeHooks op).2
    exact (hhooks.quietly (fun v => (World.Steady.wakeOperation v op).tokens) ()).after rfl

end

end

namespace World

variable {n : Nat} {t : TokenId} {w w' : World}

/-- No token becomes untripped while what is due is invoked. -/
theorem fire_untripped_le {run : Nat × Reaction → World → Course Unit} {u : TokenId} (h : ∀ e w, (run e w).Keeps n t w)
    (due : List (Nat × Reaction)) {w : World} (hn : w.untripped < n) : (w.fire u run due).world.untripped ≤ w.untripped := by
  induction due generalizing w with
  | nil => exact Nat.le_refl _
  | cons e due ih =>
    have hle := (h e w hn).1
    exact Course.untripped_andThen_le hle fun _ => ih (Nat.lt_of_le_of_lt hle hn)

/-- A token invokes what it has given out, and its book notes each. -/
theorem fire_notes {run : Nat × Reaction → World → Course Unit} (h : ∀ e w, (run e w).Keeps n t w)
    (due : List (Nat × Reaction)) {w : World} {x : Token} (hn : w.untripped < n) (hx : w.tokens[t]? = some x)
    (hi : x.interrupted = true) : (w.fire t run due).Notes t ⟨x, due⟩ [] := by
  induction due generalizing w x with
  | nil => exact ⟨⟨x, []⟩, ⟨hx, fun _ => rfl⟩, .nil, fun _ => rfl⟩
  | cons e due ih =>
    obtain ⟨hle, hrun⟩ := h e w hn
    obtain ⟨b, hb, hes, hdue⟩ := hrun ⟨x, due⟩ ⟨hx, fun hf => nomatch hi.symm.trans hf⟩
    have hfirst : ((Course.step [.invoked t e.2 (some e.1)] () w).andThen fun _ w => run e w).Notes t ⟨x, e :: due⟩ due :=
      ⟨b, hb, TokenBook.Step.invoked.run.trans hes, hdue⟩
    refine hfirst.andThen fun _ b' _ hb' hes' hdue' => ?_
    obtain ⟨x', due'⟩ := b'
    obtain rfl : due' = due := hdue'
    exact ih (Nat.lt_of_le_of_lt hle hn) hb'.token (hes'.latched.mpr (.inl hi))

/-- A token that trips keeps its latch, and holds nothing. -/
theorem trip?_token {reactions : List Reaction} (h : w.trip? t = some (reactions, w')) :
    ∃ x, w.tokens[t]? = some x ∧ x.interrupted = false ∧ w.holds t = x.entries ∧
      w'.tokens[t]? = some { x with interrupted := true, entries := [] } := by
  obtain ⟨hlt, hsteady⟩ := trip?_steady h
  unfold trip? at h
  split at h
  · nomatch h
  · rename_i x hx
    split at h
    · nomatch h
    · rename_i hi
      refine ⟨x, hx, Bool.eq_false_iff.mpr hi, by simp [holds, hx], ?_⟩
      rw [hsteady.tokens, getElem?_modifyToken, if_pos rfl, hx]
      rfl

/-- A token that cannot be tripped any more has been tripped. -/
theorem trip?_eq_none (h : w.trip? t = none) {x : Token} (hx : w.tokens[t]? = some x) : x.interrupted = true := by
  simpa [trip?, hx] using h

/-- What follows when a token gives out what it holds, if that keeps the book of a token. -/
theorem trip?_keeps {run : Nat × Reaction → World → Course Unit} {u : TokenId} {reactions : List Reaction}
    (h : w.trip? u = some (reactions, w')) (hrun : ∀ e w, (run e w).Keeps n t w) :
    ((Course.step [.called u, .tripped u] () w').andThen fun _ w' => w'.fire u run (w.holds u)).Keeps (n + 1) t w := by
  intro hn
  obtain ⟨y, hy, hi, hholds, hy'⟩ := trip?_token h
  have hgives := trip?_gives h
  have hless := untripped_lt hgives.tokens_eq hgives.latched hgives.there hgives.before hgives.after
  have hn' : w'.untripped < n := Nat.lt_of_lt_of_le hless (Nat.le_of_lt_succ hn)
  refine ⟨(fire_untripped_le hrun _ hn').trans (Nat.le_of_lt hless), fun ⟨x, due⟩ hb => ?_⟩
  by_cases hu : u = t
  · subst hu
    obtain rfl : y = x := Option.some.inj (hy.symm.trans hb.token)
    obtain rfl : due = [] := hb.due hi
    have htripped : TokenBook.Run u ⟨y, []⟩ [.called u, .tripped u]
        ⟨{ y with interrupted := true, entries := [] }, w.holds u⟩ := by
      rw [hholds]
      exact (TokenBook.Step.tripped hi).run
    obtain ⟨b', hb', hes, hdue⟩ := fire_notes hrun (w.holds u) hn' hy' rfl
    exact ⟨b', hb', htripped.trans hes, hdue⟩
  · have hentry (e : Nat × Reaction) (v : World) :
        ((Course.step [.invoked u e.2 (some e.1)] () v).andThen fun _ w => run e w).Keeps n t v :=
      (Course.Keeps.step (.others rfl (by simpa [TokenEvent.token] using hu)) ()).andThen fun _ w => hrun e w
    have hshows : w'.Shows t ⟨x, due⟩ :=
      ⟨by rw [(trip?_steady h).2.tokens, getElem?_modifyToken, if_neg hu, hb.token], hb.due⟩
    obtain ⟨b', hb', hes, hdue⟩ := (Course.Keeps.each hentry (w.holds u) w' hn').2 _ hshows
    have htripped : TokenBook.Run t ⟨x, due⟩ [.called u, .tripped u] ⟨x, due⟩ :=
      .others (by simpa [TokenEvent.token] using hu)
    exact ⟨b', hb', htripped.trans hes, hdue⟩

/-- A trip and what follows from it keeps the books of all tokens. -/
theorem tripCourse_keeps (own : Ownership) (held : List TokenId) (n : Nat) (u : TokenId) (w : World) :
    (w.tripCourse own held n u).Keeps n t w := by
  induction n generalizing u w with
  | zero => exact fun hn => absurd hn (Nat.not_lt_zero _)
  | succ n ih =>
    unfold tripCourse
    split
    · exact .wait held w
    · split
      · rename_i h
        refine .step (.steady rfl fun b hb => ?_) ()
        by_cases hu : u = t
        · subst hu
          exact (TokenBook.Step.again (trip?_eq_none h hb.token)).run
        · exact .others (by simpa [TokenEvent.token] using hu)
      · rename_i h
        exact trip?_keeps h fun e w => e.2.course_keeps own held ih w

/-- The book is kept in the course of a trip, and of all the trips it brings about. -/
theorem interruptCourse_keeps (own : Ownership) (held : List TokenId) (u : TokenId) (w : World) :
    (w.interruptCourse own held u).Keeps n t w := by
  intro _
  exact w.tripCourse_keeps own held _ u (Nat.lt_succ_of_le w.untripped_le_size)

/-- The book is kept while somebody subscribes to a token. -/
theorem reactCourse_keeps (own : Ownership) (held : List TokenId) (w : World) (u : TokenId) (r : Reaction) :
    (w.reactCourse own held u r).Keeps n t w :=
  w.handCourse_keeps held (r.course_keeps own held fun u w => w.interruptCourse_keeps own held u)

end World

section

variable (own : Ownership) (held : List TokenId) {n : Nat} {t : TokenId}

/-- The book is kept in the course of an action. -/
theorem Action.course_keeps {α : Type} (a : Action α) (w : World) : (a.course own held w).Keeps n t w := by
  have ht (u : TokenId) (w : World) : (w.interruptCourse own held u).Keeps n t w := w.interruptCourse_keeps own held u
  induction a generalizing w with
  | pure a => exact .step (.refl w) _
  | panic p => exact .step (.refl w) _
  | ask c next ih => exact (c.course_keeps own held ht w).andThen fun r v => ih r v
  | subscribe u l next ih => exact (w.reactCourse_keeps own held u (.call l)).andThen fun s v => ih s v
  | register op l next ih =>
    have ha := w.addHook_tokens op l
    simp only [Action.course]
    rcases h : w.addHook op l with ⟨_ | _, w'⟩ <;> rw [h] at ha
    · exact ((l.course_keeps own held ht w').noted.andThen fun _ v => ih v).after ha
    · exact (ih w').after ha

/-- A call keeps the book of a token that has been made, and nothing becomes due unless it waits for ever. -/
theorem TokenCall.course_notes (c : TokenCall) {w : World} {b : TokenBook} (hb : w.Shows t b) :
    (c.course own held w).Notes t b b.due := by
  have hkeeps {x : Course Unit} (h : x.Keeps (w.untripped + 1) t w) : x.Notes t b b.due := (h (Nat.lt_succ_self _)).2 b hb
  cases c with
  | make =>
    refine ⟨b, ⟨?_, hb.due⟩, .nil, fun _ => rfl⟩
    have hlt := (Array.getElem?_eq_some_iff.mp hb.token).1
    have hne : t ≠ w.tokens.size := Nat.ne_of_lt hlt
    simpa [course, Course.step, World.newToken, Array.getElem?_push, hne] using hb.token
  | listen u r => exact hkeeps ((w.reactCourse_keeps own held u r).quietly (fun _ => rfl) ())
  | drop s => exact hkeeps (own.drop_keeps held s w)
  | interrupt u => exact hkeeps (w.interruptCourse_keeps own held u)
  | perform a => exact hkeeps ((a.course_keeps own held w).quietly (fun _ => rfl) ())

end

/-! ### Code whose closures own nothing -/

section

variable {n : Nat} {t : TokenId}

/-- The book is kept while a command is answered whose listeners own nothing. -/
theorem Command.run_keeps (c : Command) (w : World) :
    World.Keeps n t w (c.tokenEvents World.interruptTokenEvents w) (c.run World.interrupt w).2 :=
  (c.course_keeps .nothing [] (fun u w => w.interruptCourse_keeps .nothing [] u) w).of_step
    (c.course_nothing World.interruptCourse_nothing w)

/-- The book is kept while a listener is invoked whose closures own nothing. -/
theorem Listener.invoke_keeps (l : Listener) (w : World) :
    World.Keeps n t w (l.tokenEvents World.interrupt World.interruptTokenEvents w) (l.invoke World.interrupt w) :=
  (l.course_keeps .nothing [] (fun u w => w.interruptCourse_keeps .nothing [] u) w).noted.of_step
    (Listener.noted_nothing (l.course_nothing World.interruptCourse_nothing w))

/-- The book is kept through a trip whose listeners own nothing. -/
theorem World.interrupt_keeps (u : TokenId) (w : World) : Keeps n t w (w.interruptTokenEvents u) (w.interrupt u) :=
  (w.interruptCourse_keeps .nothing [] u).of_step (interruptCourse_nothing u w)

/-- The book is kept through a subscription whose reaction owns nothing. -/
theorem World.react_keeps (w : World) (u : TokenId) (r : Reaction) :
    Keeps n t w (w.reactTokenEvents u r) (w.react u r).2 :=
  (w.reactCourse_keeps .nothing [] u r).of_step (w.reactCourse_nothing u r)

/-- The book is kept through an action whose listeners own nothing. -/
theorem Action.run_keeps {α : Type} (a : Action α) (w : World) : World.Keeps n t w (a.tokenEvents w) (a.run w).2 :=
  (a.course_keeps .nothing [] w).of_step (a.course_nothing w)

end

namespace TokenCall

variable {t : TokenId} {b : TokenBook}

/-- A call keeps the book of a token that has been made. -/
theorem run_shows (c : TokenCall) {w : World} (hb : w.Shows t b) :
    ∃ x, (c.run w).Shows t ⟨x, b.due⟩ ∧ b.Run t (c.events w) ⟨x, b.due⟩ := by
  obtain ⟨⟨x, due⟩, hx, hes, hdue⟩ := c.course_notes .nothing [] hb
  rw [c.course_nothing w] at hx hes hdue
  obtain rfl : due = b.due := hdue ⟨(), rfl⟩
  exact ⟨x, hx, hes⟩

/-- A sequence of calls to tokens is one run of the book of each token, with the same things due as before. -/
theorem runAll_shows (calls : List TokenCall) {w : World} (hb : w.Shows t b) :
    ∃ x, (runAll calls w).Shows t ⟨x, b.due⟩ ∧ b.Run t (history calls w) ⟨x, b.due⟩ := by
  induction calls generalizing w b with
  | nil => exact ⟨b.token, hb, .nil⟩
  | cons c calls ih =>
    obtain ⟨x, hx, hfirst⟩ := c.run_shows hb
    obtain ⟨x', hx', hrest⟩ := ih hx
    exact ⟨x', hx', hfirst.trans hrest⟩

end TokenCall

end Interruptible
