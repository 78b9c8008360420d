import Interruptible.Proofs.World.Stakes

/-!
# Subscriptions of the runtime

What the runtime itself does with tokens and operations: it makes them, registers a stake, gives up a subscription, and notes
the task that awaits an operation. A subscription under which nothing but one stake is registered (`World.Holds`) can be given
up without harm to any other stake.
-/

namespace Interruptible

namespace World

/-- A subscription is the one of a stake: nothing else is, or will be, registered under it. -/
structure Holds (w : World) (s : Subscription) (x : Stake) : Prop where
  issued : w.Issued x
  allotted : w.Allotted s
  sole : ∀ y, w.Registered s y → y = x

theorem Holds.onward {X : Stake → Prop} {w w' : World} {s : Subscription} {x : Stake} (hs : w.Holds s x)
    (h : Onward X w w') : w'.Holds s x where
  issued := h.issued hs.issued
  allotted := h.allotted s hs.allotted
  sole y hy := by
    rcases h.registered s y hy with hy | ⟨hn, -⟩
    · exact hs.sole y hy
    · exact absurd hs.allotted hn

namespace Faithful

variable {X : Stake → Prop} {w : World}

theorem unsubscribe {s : Subscription} {x : Stake} (hs : w.Holds s x) (hx : X x) : Faithful X w (w.unsubscribe s) := by
  refine .modifyToken (fun _ => rfl) (fun _ => Nat.le_refl _) (fun _ _ _ h => .inl (List.mem_filter.mp h).1)
    fun token key y ht hy h => ?_
  refine List.mem_filter.mpr ⟨h, ?_⟩
  rw [bne_iff_ne]
  rintro rfl
  exact hy (hs.sole y ⟨token, ht, h⟩ ▸ hx)

theorem attend {op : OperationId} (hx : X (.operation op)) : Faithful X w (w.attend op) :=
  .modifyOperation (fun _ h => h) fun h => absurd hx h

theorem newToken : Faithful X w w.newToken.2 := by
  have hget : ∀ (t : TokenId) x, w.newToken.2.tokens[t]? = some x → w.tokens[t]? = some x ∨ x.entries = [] := by
    intro t x h
    simp only [World.newToken, Array.getElem?_push] at h
    split at h
    · exact .inr (by rw [← Option.some.inj h])
    · exact .inl h
  have hold : ∀ (t : TokenId) x, w.tokens[t]? = some x → w.newToken.2.tokens[t]? = some x := by
    intro t x h
    have hlt := (Array.getElem?_eq_some_iff.mp h).1
    simp only [World.newToken, Array.getElem?_push, Nat.ne_of_lt hlt, if_false, h]
  have hsame := isInterrupted_newToken w
  have hreg : ∀ s x, w.newToken.2.Registered s x → w.Registered s x := by
    rintro s x ⟨token, ht, hmem⟩
    rcases hget _ _ ht with ht | hempty
    · exact ⟨token, ht, hmem⟩
    · rw [hempty] at hmem
      cases hmem
  exact
    { tokens := by simp [World.newToken]
      operations := Nat.le_refl _
      latched := fun t h => by rwa [hsame]
      fired := fun _ h => h
      awaiter := fun _ _ _ => rfl
      current := rfl
      awake := fun _ h => h
      allotted := fun s h => by
        obtain ⟨token, ht, hlt⟩ := h
        exact ⟨token, hold _ _ ht, hlt⟩
      registered := fun s x h => .inl (hreg s x h)
      live := fun s x _ _ h => by
        obtain ⟨⟨token, ht, hmem⟩, hi⟩ := h
        exact .inl ⟨⟨token, hold _ _ ht, hmem⟩, by rwa [hsame]⟩ }

theorem newOperation : Faithful X w w.newOperation.2 where
  tokens := Nat.le_refl _
  operations := by simp [World.newOperation]
  latched _ h := h
  fired op h := by
    simp only [isFired] at h ⊢
    cases hx : w.operations[op]? with
    | none => simp [hx] at h
    | some x =>
      have hlt := (Array.getElem?_eq_some_iff.mp hx).1
      simp only [World.newOperation, Array.getElem?_push, Nat.ne_of_lt hlt, if_false]
      exact h
  awaiter op hi _ := by
    have hi : op < w.operations.size := hi
    simp only [World.awaiter, World.newOperation, Array.getElem?_push, Nat.ne_of_lt hi, if_false]
  current := rfl
  awake _ h := h
  allotted _ h := h
  registered _ _ h := .inl h
  live _ _ _ _ h := .inl h

end Faithful

/-- A token takes a reaction if it is there and has not been tripped. -/
theorem subscribe_cases (w : World) (t : TokenId) (r : Reaction) :
    w.subscribe t r = (none, w) ∨
      ∃ token, w.tokens[t]? = some token ∧ token.interrupted = false ∧
        w.subscribe t r =
          (some { token := t, key := token.nextKey },
            w.modifyToken t fun x => { x with nextKey := x.nextKey + 1, entries := x.entries ++ [(x.nextKey, r)] }) := by
  unfold subscribe
  split
  · exact .inl rfl
  · rename_i token ht
    split
    · exact .inl rfl
    · rename_i hi
      exact .inr ⟨token, ht, Bool.eq_false_iff.mpr hi, rfl⟩

/-- What comes of registering a stake with a token: it is held and live, or it has been answered at once. -/
theorem react_stake {w w' : World} {t : TokenId} {x : Stake} {o : Option Subscription} (hw : w.KeysSound) (hx : w.Issued x)
    (h : w.react t x.reaction = (o, w')) :
    Faithful Stake.None w w' ∧ (∀ s, o = some s → s.token = t ∧ w'.Holds s x ∧ w'.Live s x) ∧
      (o = none → w'.Answered x) := by
  unfold react at h
  rcases subscribe_cases w t x.reaction with hs | ⟨token, ht, hi, hs⟩
  · rw [hs] at h
    obtain ⟨rfl, rfl⟩ := Prod.mk.inj h
    obtain ⟨hacts, hanswered⟩ := x.reaction.run_serving (interrupt_serving _) w (Nat.lt_succ_self _)
    exact ⟨hacts.toFaithful, nofun, fun _ => hanswered x rfl hx⟩
  · rw [hs] at h
    obtain ⟨rfl, rfl⟩ := Prod.mk.inj h
    have hf : Faithful Stake.None w
        (w.modifyToken t fun y => { y with nextKey := y.nextKey + 1, entries := y.entries ++ [(y.nextKey, x.reaction)] }) := by
      refine .modifyToken (fun _ => rfl) (fun _ => Nat.le_succ _) (fun y key z h => ?_)
        fun _ _ _ _ _ h => List.mem_append_left _ h
      rcases List.mem_append.mp h with h | h
      · exact .inl h
      · rw [(Prod.mk.inj (List.mem_singleton.mp h)).1]
        exact .inr ⟨Nat.le_refl _, Nat.lt_succ_self _⟩
    refine ⟨hf, fun s hs => ?_, nofun⟩
    obtain rfl := Option.some.inj hs
    have hget := getElem?_modifyToken w t t fun y =>
      { y with nextKey := y.nextKey + 1, entries := y.entries ++ [(y.nextKey, x.reaction)] }
    rw [if_pos rfl, ht] at hget
    refine ⟨rfl, ⟨hf.issued hx, ⟨_, hget, Nat.lt_succ_self _⟩, fun y hy => ?_⟩, ⟨_, hget, ?_⟩, ?_⟩
    · obtain ⟨token', ht', hmem⟩ := hy
      obtain rfl := Option.some.inj (hget.symm.trans ht')
      rcases List.mem_append.mp hmem with hmem | hmem
      · obtain ⟨token', ht', hlt⟩ := hw { token := t, key := token.nextKey } y ⟨token, ht, hmem⟩
        obtain rfl := Option.some.inj (ht.symm.trans ht')
        exact absurd hlt (Nat.lt_irrefl _)
      · exact Stake.reaction_injective (Prod.mk.inj (List.mem_singleton.mp hmem)).2
    · exact List.mem_append_right _ List.mem_cons_self
    · simp [isInterrupted, hget, hi]

end World

end Interruptible
