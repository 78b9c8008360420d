import Mathlib.Logic.Relation
import Interruptible.Proofs.World.Closures
import Interruptible.Proofs.World.Stakes

/-!
# When dropping a subscription returns

Dropping a subscription takes the lock of its token, and what the removed closure owns is dropped before the lock is given back.
It waits for ever just if a chain of owners leads from the subscription to one whose token is locked already
(`Ownership.Deadlocks`): by somebody who waits for ever, or further up the chain (`Ownership.discard_returns_iff`,
`Ownership.drop_returns_iff`). A drop that returns has removed the listener of its subscription, and nothing but what it owned,
directly or through others (`Ownership.Cleared`).
-/

namespace Interruptible

namespace World

/-- A listener that code has registered stands under a subscription. -/
def Stands (w : World) (s : Subscription) : Prop := ∃ r, (s.key, r) ∈ w.holds s.token ∧ r.isListener = true

/-- A listener has been removed between two worlds. -/
def Loses (w v : World) (s : Subscription) : Prop := w.Stands s ∧ ¬ v.Stands s

/-- How many tokens are not locked. -/
def unheld (w : World) (held : List TokenId) : Nat := ((Finset.range w.tokens.size).filter (· ∉ held)).card

/-- No more tokens can be locked than there are. -/
theorem unheld_le_size (w : World) (held : List TokenId) : w.unheld held ≤ w.tokens.size :=
  (Finset.card_filter_le _ _).trans (Finset.card_range _).le

/-- Locking a token leaves one token less to be locked. -/
theorem unheld_lt {w : World} {held : List TokenId} {t : TokenId} (ht : t < w.tokens.size) (hn : t ∉ held) :
    w.unheld (t :: held) < w.unheld held := by
  refine Finset.card_lt_card ⟨?_, fun hsub => ?_⟩
  · intro u hu
    rw [Finset.mem_filter] at hu ⊢
    exact ⟨hu.1, fun hmem => hu.2 (List.mem_cons_of_mem _ hmem)⟩
  · have hmem := hsub (Finset.mem_filter.mpr ⟨Finset.mem_range.mpr ht, hn⟩)
    exact (Finset.mem_filter.mp hmem).2 List.mem_cons_self

/-- A token with which something is registered has been made. -/
theorem lt_size_of_mem_holds {w : World} {t : TokenId} {e : Nat × Reaction} (h : e ∈ w.holds t) : t < w.tokens.size := by
  by_contra hn
  rw [Nat.not_lt] at hn
  simp [holds, Array.getElem?_eq_none hn] at h

/-- A change to the entries of one token leaves those of the others as they are. -/
theorem holds_modifyEntries (w : World) (t u : TokenId) (f : Token → Token) (g : List (Nat × Reaction) → List (Nat × Reaction))
    (hf : ∀ x, (f x).entries = g x.entries) (hg : g [] = []) :
    (w.modifyToken t f).holds u = if t = u then g (w.holds u) else w.holds u := by
  unfold holds
  rw [getElem?_modifyToken]
  split
  · cases w.tokens[u]? with
    | none => exact hg.symm
    | some x => exact hf x
  · rfl

/-- What code drops is filtered out of the token's entries if it is a listener. -/
theorem holds_withdraw (w : World) (s : Subscription) (t : TokenId) :
    (w.withdraw s).holds t =
      if s.token = t then (w.holds t).filter fun e => e.1 != s.key || !e.2.isListener else w.holds t :=
  w.holds_modifyEntries _ _ _ _ (fun _ => rfl) rfl

/-- What the runtime drops is filtered out of the token's entries. -/
theorem holds_unsubscribe (w : World) (s : Subscription) (t : TokenId) :
    (w.unsubscribe s).holds t = if s.token = t then (w.holds t).filter (·.1 != s.key) else w.holds t :=
  w.holds_modifyEntries _ _ _ _ (fun _ => rfl) rfl

/-- No token comes or goes when code drops a subscription. -/
theorem withdraw_size (w : World) (s : Subscription) : (w.withdraw s).tokens.size = w.tokens.size := by
  simp [withdraw, modifyToken]

/-- No token comes or goes when the runtime drops a subscription. -/
theorem unsubscribe_size (w : World) (s : Subscription) : (w.unsubscribe s).tokens.size = w.tokens.size := by
  simp [unsubscribe, modifyToken]

/-- Code that drops a subscription adds no entries. -/
theorem withdraw_fewer (w : World) (s : Subscription) (t : TokenId) : ((w.withdraw s).holds t).Sublist (w.holds t) := by
  rw [holds_withdraw]
  split <;> simp

/-- The runtime adds no entries when it drops a subscription. -/
theorem unsubscribe_fewer (w : World) (s : Subscription) (t : TokenId) : ((w.unsubscribe s).holds t).Sublist (w.holds t) := by
  rw [holds_unsubscribe]
  split <;> simp

/-- Withdrawing a subscription removes its listener. -/
theorem not_stands_withdraw (w : World) (s : Subscription) : ¬ (w.withdraw s).Stands s := by
  rintro ⟨r, hr, hl⟩
  rw [holds_withdraw, if_pos rfl, List.mem_filter] at hr
  simp [hl] at hr

/-- What differs from a subscription in its token or its key is not lost with it. -/
theorem eq_of_loses {w v : World} {s y : Subscription}
    (hkept : ∀ t e, e ∈ w.holds t → s.token ≠ t ∨ e.1 ≠ s.key → e ∈ v.holds t) (hy : w.Loses v y) : y = s := by
  obtain ⟨⟨r, hr, hl⟩, hn⟩ := hy
  by_contra hne
  refine hn ⟨r, hkept _ _ hr ?_, hl⟩
  by_contra hsame
  rw [not_or, not_not, not_not] at hsame
  exact hne (by cases y; cases s; simp_all)

/-- Code that drops a subscription removes no other listener by that alone. -/
theorem eq_of_loses_withdraw {w : World} {s y : Subscription} (h : w.Loses (w.withdraw s) y) : y = s := by
  refine eq_of_loses (fun t e he hne => ?_) h
  rw [holds_withdraw]
  split
  · rename_i ht
    exact List.mem_filter.mpr ⟨he, by simp [hne.resolve_left (not_not_intro ht)]⟩
  · exact he

/-- The runtime removes no other listener by that alone. -/
theorem eq_of_loses_unsubscribe {w : World} {s y : Subscription} (h : w.Loses (w.unsubscribe s) y) : y = s := by
  refine eq_of_loses (fun t e he hne => ?_) h
  rw [holds_unsubscribe]
  split
  · rename_i ht
    exact List.mem_filter.mpr ⟨he, by simp [hne.resolve_left (not_not_intro ht)]⟩
  · exact he

end World

namespace Course

variable {α β : Type} {c : Course α} {f : α → World → Course β}

/-- Two things done one after the other return if the first one does, and the second one does after it. -/
theorem returns_andThen : (c.andThen f).Returns ↔ ∃ a, c.upshot = .returned a ∧ (f a c.world).Returns := by
  unfold andThen Returns
  split <;> rename_i h <;> simp [h]

/-- What happens at once delays nothing. -/
theorem returns_step_andThen {es : List TokenEvent} {a : α} {w : World} :
    ((step es a w).andThen f).Returns ↔ (f a w).Returns := Iff.rfl

/-- Code that waits for a lock that is held does not return. -/
theorem not_returns_wait (held : List TokenId) (w : World) : ¬ (wait held w : Course α).Returns := by
  rintro ⟨a, ha⟩
  nomatch ha

end Course

namespace Ownership

variable {own : Ownership} {w v u : World} {held : List TokenId} {s x y : Subscription} {xs ys : List Subscription}
  {removable : Reaction → Bool} {n : Nat}

/-- What is freed by a drop is what the removed closure owns, if there is one to be removed. -/
theorem mem_freed :
    x ∈ own.freed removable w s ↔ (∃ r, (s.key, r) ∈ w.holds s.token ∧ removable r = true) ∧ x ∈ own.owned s := by
  unfold freed
  split
  · rename_i h
    obtain ⟨e, he, hkey⟩ := List.any_eq_true.mp h
    rw [Bool.and_eq_true, beq_iff_eq] at hkey
    have hstands : ∃ r, (s.key, r) ∈ w.holds s.token ∧ removable r = true := ⟨e.2, hkey.1 ▸ he, hkey.2⟩
    simp [hstands]
  · rename_i h
    simp only [List.not_mem_nil, false_iff, not_and]
    rintro ⟨r, hr, hl⟩
    exact absurd (List.any_eq_true.mpr ⟨_, hr, by simp [hl]⟩) h

/-- Nothing is freed by a drop if the token is not there. -/
theorem freed_eq_nil (ht : ¬ s.token < w.tokens.size) : own.freed removable w s = [] := by
  refine List.eq_nil_iff_forall_not_mem.mpr fun x hx => ?_
  obtain ⟨⟨r, hr, -⟩, -⟩ := mem_freed.mp hx
  exact ht (World.lt_size_of_mem_holds hr)

/-- Nothing is freed twice by one drop. -/
theorem freed_nodup : (own.freed removable w s).Nodup := by
  unfold freed
  split
  · exact own.nodup s
  · exact List.nodup_nil

/-! ## What a drop removes -/

/-- Some subscriptions have been dropped: what has been removed by that are their listeners and what these own, directly or
through others, nothing else and nothing less, and the locks that were held are not those of its tokens. -/
structure Cleared (own : Ownership) (held : List TokenId) (xs : List Subscription) (w v : World) : Prop where
  size : v.tokens.size = w.tokens.size
  fewer : ∀ t, (v.holds t).Sublist (w.holds t)
  removed : ∀ y, w.Loses v y → y.token ∉ held ∧ (y ∈ xs ∨ ∃ z, w.Loses v z ∧ y ∈ own.owned z)
  gone : ∀ y ∈ xs, ¬ v.Stands y
  owned : ∀ z, w.Loses v z → ∀ y ∈ own.owned z, ¬ v.Stands y

/-- A listener that stands after a drop stood before it. -/
theorem Cleared.stands (h : own.Cleared held xs w v) (hs : v.Stands s) : w.Stands s := by
  obtain ⟨r, hr, hl⟩ := hs
  exact ⟨r, (h.fewer _).subset hr, hl⟩

theorem Cleared.nil (w : World) : own.Cleared held [] w w where
  size := rfl
  fewer _ := .refl _
  removed _ h := absurd h.1 h.2
  gone _ h := absurd h List.not_mem_nil
  owned _ h := absurd h.1 h.2

/-- What is removed by two drops is what each of them removes. -/
theorem Cleared.append (h : own.Cleared held xs w v) (h' : own.Cleared held ys v u) : own.Cleared held (xs ++ ys) w u where
  size := h'.size.trans h.size
  fewer t := (h'.fewer t).trans (h.fewer t)
  removed y hy := by
    have hearly {z : Subscription} (hz : w.Loses v z) : w.Loses u z := ⟨hz.1, fun hu => hz.2 (h'.stands hu)⟩
    by_cases hv : v.Stands y
    · obtain ⟨hheld, hmem | ⟨z, hz, hown⟩⟩ := h'.removed y ⟨hv, hy.2⟩
      · exact ⟨hheld, .inl (List.mem_append_right _ hmem)⟩
      · exact ⟨hheld, .inr ⟨z, ⟨h.stands hz.1, hz.2⟩, hown⟩⟩
    · obtain ⟨hheld, hmem | ⟨z, hz, hown⟩⟩ := h.removed y ⟨hy.1, hv⟩
      · exact ⟨hheld, .inl (List.mem_append_left _ hmem)⟩
      · exact ⟨hheld, .inr ⟨z, hearly hz, hown⟩⟩
  gone y hy := by
    rcases List.mem_append.mp hy with hy | hy
    · exact fun hu => h.gone y hy (h'.stands hu)
    · exact h'.gone y hy
  owned z hz y hy := by
    by_cases hv : v.Stands z
    · exact h'.owned z ⟨hv, hz.2⟩ y hy
    · exact fun hu => h.owned z ⟨hz.1, hv⟩ y hy (h'.stands hu)

/-- A listener is removed, and then what it owns under the lock of its token. -/
theorem Cleared.under (hs : s.token ∉ held)
    (h : own.Cleared (s.token :: held) (own.freed Reaction.isListener w s) (w.withdraw s) v) : own.Cleared held [s] w v :=
  have hmid {y : Subscription} (hy : w.Loses v y) (hne : y ≠ s) : (w.withdraw s).Loses v y :=
    ⟨Classical.byContradiction fun hn => hne (World.eq_of_loses_withdraw ⟨hy.1, hn⟩), hy.2⟩
  have hgone : ¬ v.Stands s := fun hv => w.not_stands_withdraw s (h.stands hv)
  { size := h.size.trans (w.withdraw_size s)
    fewer := fun t => (h.fewer t).trans (w.withdraw_fewer s t)
    removed := fun y hy => by
      by_cases hys : y = s
      · subst hys
        exact ⟨hs, .inl List.mem_cons_self⟩
      · obtain ⟨hheld, hmem | ⟨z, hz, hown⟩⟩ := h.removed y (hmid hy hys)
        · obtain ⟨hstands, hown⟩ := mem_freed.mp hmem
          exact ⟨fun hmem' => hheld (List.mem_cons_of_mem _ hmem'), .inr ⟨s, ⟨hstands, hgone⟩, hown⟩⟩
        · obtain ⟨r, hr, hl⟩ := hz.1
          have hstands : w.Stands z := ⟨r, (w.withdraw_fewer s _).subset hr, hl⟩
          exact ⟨fun hmem' => hheld (List.mem_cons_of_mem _ hmem'), .inr ⟨z, ⟨hstands, hz.2⟩, hown⟩⟩
    gone := fun y hy => by
      rw [List.mem_singleton.mp hy]
      exact hgone
    owned := fun z hz y hy => by
      by_cases hzs : z = s
      · subst hzs
        exact h.gone y (mem_freed.mpr ⟨hz.1, hy⟩)
      · exact h.owned z (hmid hz hzs) y hy }

/-- Dropping one subscription after the other removes their listeners and what these own, as soon as a single drop does so. -/
theorem each_cleared
    (h : ∀ x w, w.unheld held < n → (own.discard n held x w).Returns → own.Cleared held [x] w (own.discard n held x w).world)
    (xs : List Subscription) (w : World) (hn : w.unheld held < n) (hr : (Course.each (own.discard n held) xs w).Returns) :
    own.Cleared held xs w (Course.each (own.discard n held) xs w).world := by
  induction xs generalizing w with
  | nil => exact .nil w
  | cons x xs ih =>
    obtain ⟨a, ha, hrest⟩ := Course.returns_andThen.mp hr
    have hcleared := h x w hn ⟨a, ha⟩
    rw [Course.each, Course.andThen_of_returned ha]
    exact hcleared.append (ih _ (by rwa [World.unheld, hcleared.size]) hrest)

/-- A drop that returns removes the listener of its subscription, and what it owns. -/
theorem discard_cleared (own : Ownership) (n : Nat) (held : List TokenId) (s : Subscription) (w : World)
    (hn : w.unheld held < n) (hr : (own.discard n held s w).Returns) :
    own.Cleared held [s] w (own.discard n held s w).world := by
  induction n generalizing held s w with
  | zero => exact absurd hn (Nat.not_lt_zero _)
  | succ n ih =>
    unfold discard at hr ⊢
    split at hr
    · exact absurd hr (Course.not_returns_wait held w)
    · rename_i hs
      rw [if_neg hs, Course.andThen_of_returned rfl]
      obtain ⟨-, -, hrest⟩ := Course.returns_andThen.mp hr
      refine .under hs ?_
      by_cases ht : s.token < w.tokens.size
      · have hless : (w.withdraw s).unheld (s.token :: held) < n := by
          rw [World.unheld, w.withdraw_size s]
          exact Nat.lt_of_lt_of_le (World.unheld_lt ht hs) (Nat.le_of_lt_succ hn)
        exact each_cleared (ih _) _ _ hless hrest
      · rw [freed_eq_nil ht]
        exact .nil _

/-! ## Which drops return -/

/-- A subscription is dropped while some locks are held, and a chain of owners leads from it to a token that is locked. -/
inductive Deadlocks (own : Ownership) (w : World) : (Reaction → Bool) → List TokenId → Subscription → Prop where
  | locked {removable : Reaction → Bool} {held : List TokenId} {s : Subscription} (hs : s.token ∈ held) :
    Deadlocks own w removable held s
  | owned {removable : Reaction → Bool} {held : List TokenId} {s x : Subscription} (hx : x ∈ own.freed removable w s)
      (h : Deadlocks own w Reaction.isListener (s.token :: held) x) : Deadlocks own w removable held s

/-- Under a lock that is free, a drop waits for ever exactly if the drop of something that it frees does, under one lock
more. -/
theorem deadlocks_iff (hs : s.token ∉ held) :
    own.Deadlocks w removable held s ↔
      ∃ x ∈ own.freed removable w s, own.Deadlocks w Reaction.isListener (s.token :: held) x := by
  constructor
  · intro h
    cases h with
    | locked h => exact absurd h hs
    | owned hx h => exact ⟨_, hx, h⟩
  · rintro ⟨x, hx, h⟩
    exact .owned hx h

/-- With fewer listeners there are fewer chains. -/
theorem Deadlocks.mono {p : Reaction → Bool} (hfewer : ∀ t, (v.holds t).Sublist (w.holds t)) (h : own.Deadlocks v p held s) :
    own.Deadlocks w p held s := by
  induction h with
  | locked hs => exact .locked hs
  | owned hx _ ih =>
    obtain ⟨⟨r, hr, hl⟩, hown⟩ := mem_freed.mp hx
    exact .owned (mem_freed.mpr ⟨⟨r, (hfewer _).subset hr, hl⟩, hown⟩) ih

/-- A chain stays if what is removed from it comes after a token that is locked. -/
theorem Deadlocks.stays (above : List TokenId) {p : Reaction → Bool} (hp : p = Reaction.isListener)
    (hlost : ∀ a y, y ∈ own.owned a → w.Loses v y → w.Loses v a ∨ a.token ∈ above ∨ y.token ∈ above)
    (h : own.Deadlocks w p held s) (habove : ∀ t ∈ above, t ∈ held) (hs : w.Loses v s → s.token ∈ held) :
    own.Deadlocks v p held s := by
  induction h with
  | locked h => exact .locked h
  | @owned p held s x hx _ ih =>
    subst hp
    by_cases hheld : s.token ∈ held
    · exact .locked hheld
    · obtain ⟨hstands, hown⟩ := mem_freed.mp hx
      have hkept : v.Stands s := by
        by_contra hn
        exact hheld (hs ⟨hstands, hn⟩)
      refine .owned (mem_freed.mpr ⟨hkept, hown⟩) (ih rfl (fun t ht => List.mem_cons_of_mem _ (habove t ht)) fun hx' => ?_)
      rcases hlost s x hown hx' with h | h | h
      · exact absurd hkept h.2
      · exact absurd (habove _ h) hheld
      · exact List.mem_cons_of_mem _ (habove _ h)

/-- What has been removed together with one subscription of an owner leaves the chains from another one as they are. -/
theorem Deadlocks.stays_aside (h : own.Deadlocks w Reaction.isListener held y) (hcleared : own.Cleared held [x] w v)
    (hs : s.token ∈ held) (hx : x ∈ own.owned s) (hy : y ∈ own.owned s) (hne : y ≠ x) :
    own.Deadlocks v Reaction.isListener held y := by
  refine h.stays held rfl (fun a z hown hz => ?_) (fun _ => id) fun hlost => ?_
  · obtain ⟨-, hmem | ⟨b, hb, hown'⟩⟩ := hcleared.removed z hz
    · rw [List.mem_singleton.mp hmem] at hown
      rw [own.single _ _ _ hown hx]
      exact .inr (.inl hs)
    · rw [own.single _ _ _ hown hown']
      exact .inl hb
  · obtain ⟨-, hmem | ⟨b, hb, hown⟩⟩ := hcleared.removed y hlost
    · exact absurd (List.mem_singleton.mp hmem) hne
    · rw [own.single _ _ _ hown hy] at hb
      exact absurd hs (hcleared.removed s hb).1

/-- Several subscriptions of an owner whose token is locked are dropped without waiting just if each of them could be. -/
theorem each_returns_iff
    (hn : ∀ x w, w.unheld held < n → ((own.discard n held x w).Returns ↔ ¬ own.Deadlocks w Reaction.isListener held x))
    (hs : s.token ∈ held) (xs : List Subscription) (hnodup : xs.Nodup) (hxs : ∀ x ∈ xs, x ∈ own.owned s) (w : World)
    (hw : w.unheld held < n) :
    (Course.each (own.discard n held) xs w).Returns ↔ ∀ x ∈ xs, ¬ own.Deadlocks w Reaction.isListener held x := by
  induction xs generalizing w with
  | nil => simp [Course.each, Course.step, Course.Returns]
  | cons x xs ih =>
    rw [List.nodup_cons] at hnodup
    rw [List.forall_mem_cons] at hxs ⊢
    rw [Course.each, Course.returns_andThen, ← hn x w hw]
    have hrest (hcleared : own.Cleared held [x] w (own.discard n held x w).world) :=
      ih hnodup.2 hxs.2 _ (by rwa [World.unheld, hcleared.size])
    constructor
    · rintro ⟨a, ha, hr⟩
      have hcleared := own.discard_cleared n held x w hw ⟨a, ha⟩
      refine ⟨⟨a, ha⟩, fun y hy hdead => (hrest hcleared).mp hr y hy ?_⟩
      exact hdead.stays_aside hcleared hs hxs.1 (hxs.2 y hy) (ne_of_mem_of_not_mem hy hnodup.1)
    · rintro ⟨⟨a, ha⟩, hr⟩
      have hcleared := own.discard_cleared n held x w hw ⟨a, ha⟩
      exact ⟨a, ha, (hrest hcleared).mpr fun y hy hdead => hr y hy (hdead.mono hcleared.fewer)⟩

/-- Once the reaction of a subscription has been removed, what its closure owns is dropped without waiting just if no chain of
owners leads from the subscription to a lock that is held. -/
theorem freed_returns_iff (removable : Reaction → Bool)
    (hn : ∀ x w, w.unheld (s.token :: held) < n →
      ((own.discard n (s.token :: held) x w).Returns ↔ ¬ own.Deadlocks w Reaction.isListener (s.token :: held) x))
    (hs : s.token ∉ held) (hw : s.token < w.tokens.size → w.unheld (s.token :: held) < n)
    (hsize : v.tokens.size = w.tokens.size) (hfewer : ∀ t, (v.holds t).Sublist (w.holds t)) (hlost : ∀ y, w.Loses v y → y = s) :
    (Course.each (own.discard n (s.token :: held)) (own.freed removable w s) v).Returns ↔ ¬ own.Deadlocks w removable held s := by
  rw [deadlocks_iff hs]
  by_cases hthere : s.token < w.tokens.size
  · have hv : v.unheld (s.token :: held) < n := by rw [World.unheld, hsize]; exact hw hthere
    rw [each_returns_iff hn List.mem_cons_self _ freed_nodup (fun x hx => (mem_freed.mp hx).2) v hv, not_exists]
    refine forall_congr' fun x => ?_
    have hx : own.Deadlocks v Reaction.isListener (s.token :: held) x ↔
        own.Deadlocks w Reaction.isListener (s.token :: held) x := by
      refine ⟨fun h => h.mono hfewer, fun h => ?_⟩
      refine h.stays (s.token :: held) rfl (fun a y _ hy => ?_) (fun _ => id) fun hx => ?_
      · rw [hlost y hy]
        exact .inr (.inr List.mem_cons_self)
      · rw [hlost x hx]
        exact List.mem_cons_self
    rw [not_and, hx]
  · simp [freed_eq_nil hthere, Course.each, Course.step, Course.Returns]

/-- Code that drops a subscription goes on just if no chain of owners leads to a lock that is held. -/
theorem discard_returns_iff (own : Ownership) (n : Nat) (held : List TokenId) (s : Subscription) (w : World)
    (hn : w.unheld held < n) :
    (own.discard n held s w).Returns ↔ ¬ own.Deadlocks w Reaction.isListener held s := by
  induction n generalizing held s w with
  | zero => exact absurd hn (Nat.not_lt_zero _)
  | succ n ih =>
    unfold discard
    by_cases hs : s.token ∈ held
    · rw [if_pos hs]
      exact iff_of_false (Course.not_returns_wait _ _) fun h => h (.locked hs)
    · have hless (ht : s.token < w.tokens.size) : w.unheld (s.token :: held) < n :=
        Nat.lt_of_lt_of_le (World.unheld_lt ht hs) (Nat.le_of_lt_succ hn)
      have hrest := freed_returns_iff Reaction.isListener (fun x w => ih (s.token :: held) x w) hs hless
        (w.withdraw_size s) (w.withdraw_fewer s) fun _ => World.eq_of_loses_withdraw
      rw [if_neg hs, ← hrest]
      exact Course.returns_step_andThen

/-- So does the runtime. -/
theorem drop_returns_iff (own : Ownership) (held : List TokenId) (s : Subscription) (w : World) :
    (own.drop held s w).Returns ↔ ¬ own.Deadlocks w (fun _ => true) held s := by
  unfold drop
  by_cases hs : s.token ∈ held
  · rw [if_pos hs]
    exact iff_of_false (Course.not_returns_wait _ _) fun h => h (.locked hs)
  · have hrest := freed_returns_iff (fun _ => true) (own.discard_returns_iff (w.tokens.size + 1) (s.token :: held)) hs
      (fun _ => Nat.lt_succ_of_le (w.unheld_le_size _)) (w.unsubscribe_size s) (w.unsubscribe_fewer s)
      fun _ => World.eq_of_loses_unsubscribe
    rw [if_neg hs, ← hrest]
    exact Course.returns_step_andThen

/-- Of two closures that are registered with a token, the later one owns the subscription of the earlier one. -/
def laterOwnsEarlier : Ownership where
  owned s := if s = ⟨0, 1⟩ then [⟨0, 0⟩] else []
  nodup s := by split <;> simp
  single s s' x hx hx' := by
    have hs {s : Subscription} (hx : x ∈ if s = ⟨0, 1⟩ then [(⟨0, 0⟩ : Subscription)] else []) : s = ⟨0, 1⟩ := by
      by_contra hn
      rw [if_neg hn] at hx
      nomatch hx
    rw [hs hx, hs hx']

/-- The subscription of the later one is dropped, which waits for the lock that it holds. -/
example : ((Passage.start (World.newToken default).2).afterAll laterOwnsEarlier
    [.listen 0 (.call .done), .listen 0 (.call .done), .drop ⟨0, 1⟩]).held = [0] := rfl

/-! ## Code that returns -/

/-- Some closure owns, directly or through others, a subscription of the token with which it is registered itself. -/
def Entangled (own : Ownership) : Prop :=
  ∃ s x, Relation.TransGen (fun s x => x ∈ own.owned s) s x ∧ x.token = s.token

/-- A chain of owners that leads to a lock leads to one that was held before, or back to where it has been. -/
theorem Deadlocks.entangled {p : Reaction → Bool} (h : own.Deadlocks w p held s)
    (hheld : ∀ t ∈ held, ∃ z, z.token = t ∧ Relation.TransGen (fun s x => x ∈ own.owned s) z s) : own.Entangled := by
  induction h with
  | locked hs =>
    obtain ⟨z, hz, hchain⟩ := hheld _ hs
    exact ⟨z, _, hchain, hz.symm⟩
  | @owned p held s x hx _ ih =>
    have hown := (mem_freed.mp hx).2
    refine ih fun t ht => ?_
    rcases List.mem_cons.mp ht with rfl | ht
    · exact ⟨s, rfl, .single hown⟩
    · obtain ⟨z, hz, hchain⟩ := hheld t ht
      exact ⟨z, hz, hchain.tail hown⟩

/-- Where no closure owns a subscription of its own token, no drop waits for ever. -/
theorem not_deadlocks (hown : ¬ own.Entangled) {p : Reaction → Bool} : ¬ own.Deadlocks w p [] s :=
  fun h => hown (h.entangled fun _ ht => nomatch ht)

end Ownership

namespace Course

variable {α β : Type} {c : Course α} {f : α → World → Course β}

/-- Two things return one after the other if each of them does. -/
theorem Returns.andThen (h : c.Returns) (hf : ∀ a v, (f a v).Returns) : (c.andThen f).Returns := by
  obtain ⟨a, ha⟩ := h
  exact returns_andThen.mpr ⟨a, ha, hf a _⟩

/-- What is done for one thing after the other returns if it does for each of them. -/
theorem Returns.each {run : β → World → Course Unit} (h : ∀ x w, (run x w).Returns) (xs : List β) (w : World) :
    (Course.each run xs w).Returns := by
  induction xs generalizing w with
  | nil => exact ⟨(), rfl⟩
  | cons x xs ih => exact (h x w).andThen fun _ v => ih v

/-- Recording a panic delays nothing. -/
theorem Returns.noted {c : Course (Option Panic)} (h : c.Returns) : c.noted.Returns := by
  refine h.andThen fun p v => ?_
  cases p <;> exact ⟨(), rfl⟩

end Course

/-- Handing a reaction to a token returns when no lock is held, if carrying it out does. -/
theorem World.handCourse_returns {t : TokenId} {r : Reaction} {late : World → Course Unit} (hl : ∀ v, (late v).Returns)
    (w : World) : (w.handCourse [] t r late).Returns := by
  unfold handCourse
  rw [if_neg List.not_mem_nil]
  split
  · exact ⟨_, rfl⟩
  · exact Course.returns_step_andThen.mpr ((hl _).andThen fun _ _ => ⟨_, rfl⟩)

section

variable {own : Ownership} (hown : ¬ own.Entangled)

include hown

section

variable {trip : TripCourse} (ht : ∀ t w, (trip t w).Returns)

include ht

/-- Commands are answered when no lock is held. -/
theorem Command.course_returns (c : Command) (w : World) : (c.course own [] trip w).Returns := by
  cases c with
  | interrupt t => exact ht t w
  | link parent child => exact w.handCourse_returns (ht child)
  | unsubscribe s =>
    exact (own.discard_returns_iff _ [] s w (Nat.lt_succ_of_le (w.unheld_le_size []))).mpr (Ownership.not_deadlocks hown)
  | _ => exact ⟨_, rfl⟩

/-- Listeners come to their end when no lock is held. -/
theorem Listener.course_returns (l : Listener) (w : World) : (l.course own [] trip w).Returns := by
  induction l generalizing w with
  | done => exact ⟨_, rfl⟩
  | panic p => exact ⟨_, rfl⟩
  | ask c next ih => exact (c.course_returns hown ht w).andThen ih
  | subscribe t l next ihl ihn => exact (w.handCourse_returns fun v => (ihl v).noted).andThen ihn
  | register op l next ihl ihn =>
    simp only [Listener.course]
    split
    · exact ihn _
    · exact (ihl _).noted.andThen fun _ => ihn

/-- Reactions are carried out when no lock is held. -/
theorem Reaction.course_returns (r : Reaction) (w : World) : (r.course own [] trip w).Returns := by
  cases r with
  | call l => exact (l.course_returns hown ht w).noted
  | forward child => exact ht child w
  | stop op => exact (Course.Returns.each (fun l w => (l.course_returns hown ht w).noted) _ _).andThen fun _ _ => ⟨_, rfl⟩

end

/-- Tripping a token returns when no lock is held, however many reactions it brings about. -/
theorem World.tripCourse_returns (n : Nat) (t : TokenId) (w : World) : (w.tripCourse own [] n t).Returns := by
  induction n generalizing t w with
  | zero => exact ⟨_, rfl⟩
  | succ n ih =>
    unfold tripCourse
    rw [if_neg List.not_mem_nil]
    split
    · exact ⟨_, rfl⟩
    · exact Course.returns_step_andThen.mpr
        (Course.Returns.each (fun e v => Course.returns_step_andThen.mpr (e.2.course_returns hown ih v)) _ _)

/-- Interrupting a token returns when no lock is held. -/
theorem World.interruptCourse_returns (t : TokenId) (w : World) : (w.interruptCourse own [] t).Returns :=
  w.tripCourse_returns hown _ t

/-- Subscribing to a token returns when no lock is held, also when the reaction comes too late and is carried out at once. -/
theorem World.reactCourse_returns (w : World) (t : TokenId) (r : Reaction) : (w.reactCourse own [] t r).Returns :=
  w.handCourse_returns (r.course_returns hown (World.interruptCourse_returns hown))

/-- The actions of code return: the locks they take are free when they start, and no closure owns a subscription of its own
token. -/
theorem Action.course_returns {α : Type} (a : Action α) (w : World) : (a.course own [] w).Returns := by
  have ht (t : TokenId) (w : World) := World.interruptCourse_returns hown t w
  induction a generalizing w with
  | pure a => exact ⟨_, rfl⟩
  | panic p => exact ⟨_, rfl⟩
  | ask c next ih => exact (c.course_returns hown ht w).andThen ih
  | subscribe t l next ih => exact (w.reactCourse_returns hown t (.call l)).andThen ih
  | register op l next ih =>
    simp only [Action.course]
    split
    · exact ih _
    · exact (l.course_returns hown ht _).noted.andThen fun _ => ih

/-- Unless closures own subscriptions of their own tokens, calls return. -/
theorem TokenCall.course_returns (c : TokenCall) (w : World) : (c.course own [] w).Returns := by
  cases c with
  | make => exact ⟨_, rfl⟩
  | listen t r => exact (w.reactCourse_returns hown t r).andThen fun _ _ => ⟨_, rfl⟩
  | drop s => exact (own.drop_returns_iff [] s w).mpr (Ownership.not_deadlocks hown)
  | interrupt t => exact w.interruptCourse_returns hown t
  | perform a => exact (a.course_returns hown w).andThen fun _ _ => ⟨_, rfl⟩

end

end Interruptible
