import Interruptible.Proofs.Context.Lookup
import Interruptible.Proofs.World.Alike
import Interruptible.Proofs.World.Counterparts

/-!
# Worlds that go in step

Two worlds that match go in step if they go on to worlds that match (`World.InStep`). What has been made on the way is matched
in the order in which it was made, the same is written to both logs, and on neither side has anything changed that has no
counterpart (`World.Spares`): whoever knows other names only has not noticed anything. This module goes through what code does
to the world piece by piece: something changes what goes by one name (`InStep.modify`), sets a slot (`InStep.set`), gives out
a new name (`InStep.add`), or does nothing that could be seen (`InStep.still`).
-/

namespace Interruptible

namespace World

/-! ## What a change leaves as it is -/

/-- Nothing has changed outside of a region. -/
structure Spares (E : Region) (w v : World) : Prop where
  entries : ∀ k i, i < w.count k → ¬ E.ids k i → v.entry k i = w.entry k i
  slots : ∀ s, ¬ E.writes s → v.slot s = w.slot s

/-- Nothing has changed that code could see. -/
structure Unseen (w v : World) : Prop where
  entries : ∀ k i, v.entry k i = w.entry k i
  counts : ∀ k, v.count k = w.count k
  slots : ∀ s, v.slot s = w.slot s
  log : v.log = w.log

/-- What goes by one name has changed. -/
structure Modifies (w v : World) (k : Kind) (i : Nat) (f : k.Entry → k.Entry) : Prop where
  there : v.entry k i = (w.entry k i).map f
  others : ∀ k' j, ¬ (k' = k ∧ j = i) → v.entry k' j = w.entry k' j
  counts : ∀ k, v.count k = w.count k
  slots : ∀ s, v.slot s = w.slot s
  log : v.log = w.log

/-- A slot has been set. -/
structure Sets (w v : World) (s : Slot) (x : s.Content) : Prop where
  there : v.slot s = x
  others : ∀ s', s' ≠ s → v.slot s' = w.slot s'
  entries : ∀ k i, v.entry k i = w.entry k i
  counts : ∀ k, v.count k = w.count k
  log : v.log = w.log

/-- A new name has been given out. -/
structure Adds (w v : World) (k : Kind) (x : k.Entry) : Prop where
  there : v.entry k (w.count k) = some x
  others : ∀ k' i, i < w.count k' → v.entry k' i = w.entry k' i
  count : v.count k = w.count k + 1
  counts : ∀ k', k' ≠ k → v.count k' = w.count k'
  slots : ∀ s, v.slot s = w.slot s
  log : v.log = w.log

namespace Unseen

variable {w v u : World}

theorem refl (w : World) : w.Unseen w := ⟨fun _ _ => rfl, fun _ => rfl, fun _ => rfl, rfl⟩

theorem trans (h : w.Unseen v) (h' : v.Unseen u) : w.Unseen u where
  entries k i := (h'.entries k i).trans (h.entries k i)
  counts k := (h'.counts k).trans (h.counts k)
  slots s := (h'.slots s).trans (h.slots s)
  log := h'.log.trans h.log

/-- The tasks that wait and those that are ready are not for code to see, nor are the records. -/
theorem of_eq (ht : v.tokens = w.tokens) (ho : v.operations = w.operations) (hc : v.cells = w.cells)
    (hcounters : v.counters = w.counters) (hgates : v.openGates = w.openGates) (hnow : v.now = w.now)
    (hnames : v.names = w.names) (hlog : v.log = w.log) : w.Unseen v where
  entries k i := by cases k <;> simp only [entry, ht, ho, hc]
  counts k := by cases k <;> simp only [count, ht, ho, hc]
  slots s := by cases s <;> simp only [slot, counter, isOpen, hcounters, hgates, hnow, hnames]
  log := hlog

/-- Worlds that are alike to code are the same to see. -/
theorem of_alike (h : w.Alike v) : w.Unseen v := by
  obtain ⟨_, _, _, rfl⟩ := h.exists_eq
  exact of_eq rfl rfl rfl rfl rfl rfl rfl rfl

/-- Records are not for code to see. -/
theorem record (w : World) (r : Record) : w.Unseen (w.record r) := of_alike (.of_record w r)

/-- Who is called by an announcement is not for code to see. -/
theorem emit (w : World) (s : Signal) : w.Unseen (w.emit s) := by
  have hrest : w.Unseen { w with waiters := w.waiters.filter (·.signal != s) } := of_eq rfl rfl rfl rfl rfl rfl rfl rfl
  exact hrest.trans (of_alike (.of_emit w s))

/-- Whether the current task is awake is not for code to see. -/
theorem wakeCurrent (w : World) : w.Unseen w.wakeCurrent := of_alike (.of_wakeCurrent w)

/-- Whether the task of an operation is awake is not for code to see. -/
theorem wakeOperation (w : World) (op : OperationId) : w.Unseen (w.wakeOperation op) := of_alike (.of_wakeOperation w op)

/-- Lines are not for code to see: an operation may be forgotten. -/
theorem forget (w : World) (op : OperationId) : w.Unseen (w.forget op) := of_eq rfl rfl rfl rfl rfl rfl rfl rfl

/-- Lines are not for code to see: a place may be taken. -/
theorem park (w : World) (s : Signal) (op : OperationId) : w.Unseen (w.park s op) := by
  unfold World.park
  split
  · exact refl w
  · split
    · exact refl w
    · exact of_eq rfl rfl rfl rfl rfl rfl rfl rfl

/-- Timers are not for code to see. -/
theorem startTimer (w : World) (deadline : Nat) (op : OperationId) : w.Unseen (w.startTimer deadline op) := by
  unfold World.startTimer
  split
  · exact refl w
  · exact of_eq rfl rfl rfl rfl rfl rfl rfl rfl

/-- What is not seen does not matter. -/
theorem spares {E : Region} (h : w.Unseen v) : w.Spares E v := ⟨fun k i _ _ => h.entries k i, fun s _ => h.slots s⟩

end Unseen

namespace Modifies

/-- Modifying a token changes what goes by its name. -/
theorem token (w : World) (t : TokenId) (f : Token → Token) : w.Modifies (w.modifyToken t f) .token t f where
  there := by
    simp only [World.entry, World.modifyToken, Array.getElem?_modify]
    rfl
  others k j h := by
    cases k with
    | token => simp only [World.entry, World.modifyToken, Array.getElem?_modify, if_neg fun ht : t = j => h ⟨rfl, ht.symm⟩]
    | operation | cell => rfl
  counts k := by cases k <;> simp [World.count, World.modifyToken]
  slots s := by cases s <;> rfl
  log := rfl

/-- Modifying an operation changes what goes by its name. -/
theorem operation (w : World) (op : OperationId) (f : Operation → Operation) :
    w.Modifies (w.modifyOperation op f) .operation op f where
  there := by
    simp only [World.entry, World.modifyOperation, Array.getElem?_modify]
    rfl
  others k j h := by
    cases k with
    | operation =>
      simp only [World.entry, World.modifyOperation, Array.getElem?_modify, if_neg fun ho : op = j => h ⟨rfl, ho.symm⟩]
    | token | cell => rfl
  counts k := by cases k <;> simp [World.count, World.modifyOperation]
  slots s := by cases s <;> rfl
  log := rfl

/-- Setting a cell changes what goes by its name. -/
theorem cell (w : World) (c : CellId) (f : Option Payload → Option Payload) :
    w.Modifies { w with cells := w.cells.modify c f } .cell c f where
  there := by
    simp only [World.entry, Array.getElem?_modify]
    rfl
  others k j h := by
    cases k with
    | cell => simp only [World.entry, Array.getElem?_modify, if_neg fun hc : c = j => h ⟨rfl, hc.symm⟩]
    | token | operation => rfl
  counts k := by cases k <;> simp [World.count]
  slots s := by cases s <;> rfl
  log := rfl

theorem trans {w v u : World} {k : Kind} {i : Nat} {f : k.Entry → k.Entry} (h : w.Modifies v k i f) (h' : v.Unseen u) :
    w.Modifies u k i f where
  there := (h'.entries k i).trans h.there
  others k' j hj := (h'.entries k' j).trans (h.others k' j hj)
  counts k := (h'.counts k).trans (h.counts k)
  slots s := (h'.slots s).trans (h.slots s)
  log := h'.log.trans h.log

end Modifies

namespace Adds

/-- A new token is given a new name. -/
theorem token (w : World) : w.Adds w.newToken.2 .token {} where
  there := by simp [World.entry, World.count, World.newToken]
  others k i h := by
    cases k with
    | token => simp only [World.entry, World.newToken, Array.getElem?_push, if_neg (show ¬ i = w.tokens.size from Nat.ne_of_lt h)]
    | operation | cell => rfl
  count := by simp [World.count, World.newToken]
  counts k h := by
    cases k with
    | token => exact absurd rfl h
    | operation | cell => rfl
  slots s := by cases s <;> rfl
  log := rfl

/-- A new operation is given a new name. -/
theorem operation (w : World) : w.Adds w.newOperation.2 .operation {} where
  there := by simp [World.entry, World.count, World.newOperation]
  others k i h := by
    cases k with
    | operation =>
      simp only [World.entry, World.newOperation, Array.getElem?_push, if_neg (show ¬ i = w.operations.size from Nat.ne_of_lt h)]
    | token | cell => rfl
  count := by simp [World.count, World.newOperation]
  counts k h := by
    cases k with
    | operation => exact absurd rfl h
    | token | cell => rfl
  slots s := by cases s <;> rfl
  log := rfl

/-- A new cell is given a new name, and is empty. -/
theorem cell (w : World) : w.Adds { w with cells := w.cells.push none } .cell none where
  there := by simp [World.entry, World.count]
  others k i h := by
    cases k with
    | cell => simp only [World.entry, Array.getElem?_push, if_neg (show ¬ i = w.cells.size from Nat.ne_of_lt h)]
    | token | operation => rfl
  count := by simp [World.count]
  counts k h := by
    cases k with
    | cell => exact absurd rfl h
    | token | operation => rfl
  slots s := by cases s <;> rfl
  log := rfl

/-- No name is given up when a new one is given out. -/
theorem grows {w v : World} {k : Kind} {x : k.Entry} (h : w.Adds v k x) (k' : Kind) : w.count k' ≤ v.count k' := by
  by_cases hk : k' = k
  · subst hk
    exact h.count ▸ Nat.le_succ _
  · exact Nat.le_of_eq (h.counts k' hk).symm

/-- If a name of the same kind is given out on both sides, there are as many more of each kind. -/
theorem evenly {w w' v v' : World} {k : Kind} {x x' : k.Entry} (h : w.Adds v k x) (h' : w'.Adds v' k x') (k' : Kind) :
    v.count k' + w'.count k' = v'.count k' + w.count k' := by
  by_cases hk : k' = k
  · subst hk
    rw [h.count, h'.count]
    omega
  · rw [h.counts k' hk, h'.counts k' hk, Nat.add_comm]

/-- The names that come to be counterparts are the new ones. -/
theorem fresh {w w' v : World} {k : Kind} {x : k.Entry} (h : w.Adds v k x) {k' : Kind} {a b : Nat}
    (hab : w.count k' ≤ a ∧ a < v.count k' ∧ a + w'.count k' = b + w.count k') :
    k' = k ∧ a = w.count k ∧ b = w'.count k := by
  obtain ⟨hle, hlt, heq⟩ := hab
  by_cases hk : k' = k
  · subst hk
    have := h.count
    exact ⟨rfl, by omega, by omega⟩
  · rw [h.counts k' hk] at hlt
    exact absurd hlt (Nat.not_lt.mpr hle)

end Adds

/-! ## Names stay unique -/

namespace Matches

variable {κ : Counterparts} {w w' : World}

/-- Counterparts are names that have been given out. -/
theorem lt_counts (h : w.Matches κ w') {k : Kind} {a b : Nat} (hab : κ.ids k a b) : a < w.count k ∧ b < w'.count k := by
  obtain ⟨_, _, hx, hx', -⟩ := h.entries k a b hab
  exact ⟨lt_count hx, lt_count hx'⟩

/-- A name has one counterpart on the right, also among those that have been added. -/
theorem grown_right_unique (h : w.Matches κ w') (v : World) (k : Kind) (a b b' : Nat) (hab : (κ.grown w w' v).ids k a b)
    (hab' : (κ.grown w w' v).ids k a b') : b = b' := by
  rcases hab with hab | ⟨hle, -, heq⟩ <;> rcases hab' with hab' | ⟨hle', -, heq'⟩
  · exact h.right_unique _ _ _ _ hab hab'
  · exact absurd (h.lt_counts hab).1 (Nat.not_lt.mpr hle')
  · exact absurd (h.lt_counts hab').1 (Nat.not_lt.mpr hle)
  · omega

/-- A name has one counterpart on the left, also among those that have been added. -/
theorem grown_left_unique (h : w.Matches κ w') (v : World) (k : Kind) (a a' b : Nat) (hab : (κ.grown w w' v).ids k a b)
    (hab' : (κ.grown w w' v).ids k a' b) : a = a' := by
  rcases hab with hab | ⟨hle, -, heq⟩ <;> rcases hab' with hab' | ⟨hle', -, heq'⟩
  · exact h.left_unique _ _ _ _ hab hab'
  · have := (h.lt_counts hab).2
    omega
  · have := (h.lt_counts hab').2
    omega
  · omega

end Matches

/-! ## Going in step -/

/-- Two worlds have gone on in the same way, as far as the counterparts go. -/
structure InStep (κ : Counterparts) (w w' v v' : World) : Prop where
  grows : ∀ k, w.count k ≤ v.count k
  evenly : ∀ k, v.count k + w'.count k = v'.count k + w.count k
  logs : ∃ l : Array Value, v.log = w.log ++ l ∧ v'.log = w'.log ++ l
  same : v.Matches (κ.grown w w' v) v'
  spares : w.Spares κ.left v
  spares' : w'.Spares κ.right v'

namespace InStep

variable {κ : Counterparts} {w w' v v' u u' : World}

/-- Two stretches in step, one after the other, are a stretch in step: the counterparts grow with each of them. -/
theorem trans (h : InStep κ w w' v v') (h' : InStep (κ.grown w w' v) v v' u u') : InStep κ w w' u u' where
  grows k := Nat.le_trans (h.grows k) (h'.grows k)
  evenly k := by
    have := h.evenly k
    have := h'.evenly k
    omega
  logs := by
    obtain ⟨l, hl, hl'⟩ := h.logs
    obtain ⟨r, hr, hr'⟩ := h'.logs
    exact ⟨l ++ r, by rw [hr, hl, Array.append_assoc], by rw [hr', hl', Array.append_assoc]⟩
  same := by
    rw [← Counterparts.grown_grown h.grows h'.grows h.evenly]
    exact h'.same
  spares := by
    refine ⟨fun k i hi hn => ?_, fun s hs => (h'.spares.slots s hs).trans (h.spares.slots s hs)⟩
    refine (h'.spares.entries k i (Nat.lt_of_lt_of_le hi (h.grows k)) ?_).trans (h.spares.entries k i hi hn)
    rintro ⟨b, hb | ⟨hle, -⟩⟩
    · exact hn ⟨b, hb⟩
    · exact absurd hi (Nat.not_lt.mpr hle)
  spares' := by
    refine ⟨fun k i hi hn => ?_, fun s hs => (h'.spares'.slots s hs).trans (h.spares'.slots s hs)⟩
    have hlt : i < v'.count k := by
      have := h.grows k
      have := h.evenly k
      omega
    refine (h'.spares'.entries k i hlt ?_).trans (h.spares'.entries k i hi hn)
    rintro ⟨a, ha | ⟨hle, -, heq⟩⟩
    · exact hn ⟨a, ha⟩
    · omega

/-- No new names have been given out. -/
theorem of_counts (hc : ∀ k, v.count k = w.count k) (hc' : ∀ k, v'.count k = w'.count k)
    (hl : ∃ l : Array Value, v.log = w.log ++ l ∧ v'.log = w'.log ++ l) (hs : v.Matches κ v') (h : w.Spares κ.left v)
    (h' : w'.Spares κ.right v') : InStep κ w w' v v' where
  grows k := Nat.le_of_eq (hc k).symm
  evenly k := by rw [hc, hc', Nat.add_comm]
  logs := hl
  same := by rwa [Counterparts.grown_of_count hc]
  spares := h
  spares' := h'

/-- Logs that stay as they are have got the same additions. -/
theorem logs_of_eq (h : v.log = w.log) (h' : v'.log = w'.log) :
    ∃ l : Array Value, v.log = w.log ++ l ∧ v'.log = w'.log ++ l := ⟨#[], by simp [h], by simp [h']⟩

/-- Nothing has happened that could be seen. -/
theorem still (hm : w.Matches κ w') (h : w.Unseen v) (h' : w'.Unseen v') : InStep κ w w' v v' := by
  refine of_counts h.counts h'.counts (logs_of_eq h.log h'.log) ?_ h.spares h'.spares
  refine ⟨fun k a b hab => ?_, fun s hs => ?_, hm.right_unique, hm.left_unique⟩
  · rw [h.entries, h'.entries]
    exact hm.entries k a b hab
  · rw [h.slots, h'.slots]
    exact hm.slots s hs

theorem refl (hm : w.Matches κ w') : InStep κ w w' w w' := still hm (.refl w) (.refl w')

/-- Records are not for code to see. -/
theorem record (hm : w.Matches κ w') (r r' : Record) : InStep κ w w' (w.record r) (w'.record r') :=
  still hm (.record w r) (.record w' r')

/-- What goes by a name, and by its counterpart, has changed in the same way. -/
theorem modify (hm : w.Matches κ w') {k : Kind} {a b : Nat} {f f' : k.Entry → k.Entry} (hab : κ.ids k a b)
    (h : w.Modifies v k a f) (h' : w'.Modifies v' k b f') (hf : ∀ x x', k.Matches κ x x' → k.Matches κ (f x) (f' x')) :
    InStep κ w w' v v' := by
  refine of_counts h.counts h'.counts (logs_of_eq h.log h'.log) ⟨fun k' i j hij => ?_, fun s hs => ?_, hm.right_unique,
    hm.left_unique⟩ ⟨fun k' i _ hn => ?_, fun s _ => h.slots s⟩ ⟨fun k' j _ hn => ?_, fun s _ => h'.slots s⟩
  · obtain ⟨x, x', hx, hx', hxx⟩ := hm.entries k' i j hij
    by_cases hk : k' = k ∧ i = a
    · obtain ⟨rfl, rfl⟩ := hk
      obtain rfl := hm.right_unique _ _ _ _ hij hab
      exact ⟨f x, f' x', by rw [h.there, hx]; rfl, by rw [h'.there, hx']; rfl, hf x x' hxx⟩
    · refine ⟨x, x', by rw [h.others k' i hk, hx], ?_, hxx⟩
      rw [h'.others k' j ?_, hx']
      rintro ⟨rfl, rfl⟩
      exact hk ⟨rfl, hm.left_unique _ _ _ _ hij hab⟩
  · rw [h.slots, h'.slots]
    exact hm.slots s hs
  · refine h.others k' i ?_
    rintro ⟨rfl, rfl⟩
    exact hn ⟨b, hab⟩
  · refine h'.others k' j ?_
    rintro ⟨rfl, rfl⟩
    exact hn ⟨a, hab⟩

/-- A slot that may be written has been set. -/
theorem set (hm : w.Matches κ w') {s : Slot} {x x' : s.Content} (hw : κ.writes s) (h : w.Sets v s x) (h' : w'.Sets v' s x')
    (hx : s.Matches κ x x') : InStep κ w w' v v' := by
  refine of_counts h.counts h'.counts (logs_of_eq h.log h'.log) ⟨fun k a b hab => ?_, fun s' hs => ?_, hm.right_unique,
    hm.left_unique⟩ ⟨fun k i _ _ => h.entries k i, fun s' hn => h.others s' ?_⟩
    ⟨fun k i _ _ => h'.entries k i, fun s' hn => h'.others s' ?_⟩
  · rw [h.entries, h'.entries]
    exact hm.entries k a b hab
  · by_cases heq : s' = s
    · subst heq
      rw [h.there, h'.there]
      exact hx
    · rw [h.others s' heq, h'.others s' heq]
      exact hm.slots s' hs
  · rintro rfl
    exact hn hw
  · rintro rfl
    exact hn hw

/-- A new name has been given out on both sides. -/
theorem add (hm : w.Matches κ w') {k : Kind} {x x' : k.Entry} (h : w.Adds v k x) (h' : w'.Adds v' k x')
    (hx : k.Matches κ x x') : InStep κ w w' v v' := by
  refine ⟨h.grows, h.evenly h', logs_of_eq h.log h'.log, ⟨fun k' a b hab => ?_, fun s hs => ?_, hm.grown_right_unique v,
    hm.grown_left_unique v⟩, ⟨fun k' i hi _ => h.others k' i hi, fun s _ => h.slots s⟩,
    ⟨fun k' i hi _ => h'.others k' i hi, fun s _ => h'.slots s⟩⟩
  · rcases hab with hab | hab
    · obtain ⟨y, y', hy, hy', hyy⟩ := hm.entries k' a b hab
      exact ⟨y, y', (h.others k' a (lt_count hy)).trans hy, (h'.others k' b (lt_count hy')).trans hy',
        hyy.mono (κ.sub_grown w w' v)⟩
    · obtain ⟨rfl, rfl, rfl⟩ := h.fresh hab
      exact ⟨x, x', h.there, h'.there, hx.mono (κ.sub_grown w w' v)⟩
  · rw [h.slots, h'.slots]
    exact (hm.slots s hs).mono (κ.sub_grown w w' v)

end InStep

end World

end Interruptible
