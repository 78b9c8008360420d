import Mathlib.Logic.ExistsUnique
import Interruptible.Proofs.Machine.Frames
import Interruptible.Proofs.Machine.Nested

/-!
# Finalizers run once

Each finalizer that an interpreter attaches is started at most once, and exactly once by the time the interpreter settles; the
finalizers start in the reverse order of their frames, and each one has settled before another frame is popped
(`finalizers_run_once`). That holds for every interpreter of a run, however deep it is nested in groups and finalizers, and
whatever anybody else does to the world at any time.

Positions in the list of frame events stand for what happened: `pairs` says which position popped the frame that was pushed at
which one.
-/

namespace Interruptible

/-! ## Which frame was popped when -/

/-- The frames that have been pushed and not popped, with the positions at which they were pushed, and the pairs of positions
at which a frame was pushed and popped. -/
structure Pairing where
  pending : List (Nat × Frame) := []
  pairs : List (Nat × Nat) := []

/-- What one event, at a position, does to the pairing. -/
def Pairing.step (x : Pairing) (position : Nat) : FrameEvent → Pairing
  | .pushed f => { x with pending := (position, f) :: x.pending }
  | .popped _ =>
    match x.pending with
    | [] => x
    | (i, _) :: rest => { pending := rest, pairs := x.pairs ++ [(i, position)] }
  | .finalized _ => x

/-- The pairing after events, given that of the events before them and their number. -/
def Pairing.after (x : Pairing) (position : Nat) : List FrameEvent → Pairing
  | [] => x
  | e :: rest => (x.step position e).after (position + 1) rest

/-- The pairing of a list of events. -/
def pairing (events : List FrameEvent) : Pairing := Pairing.after {} 0 events

/-- The pairs of positions at which a frame was pushed and popped again. -/
def pairs (events : List FrameEvent) : List (Nat × Nat) := (pairing events).pairs

theorem Pairing.after_append (x : Pairing) (position : Nat) (events : List FrameEvent) (e : FrameEvent) :
    x.after position (events ++ [e]) = (x.after position events).step (position + events.length) e := by
  induction events generalizing x position with
  | nil => rfl
  | cons a rest ih =>
    simp only [List.cons_append, Pairing.after, ih, List.length_cons]
    congr 1
    omega

theorem pairing_append (events : List FrameEvent) (e : FrameEvent) :
    pairing (events ++ [e]) = (pairing events).step events.length e := by
  simp [pairing, Pairing.after_append]

theorem pairing_pushed (events : List FrameEvent) (f : Frame) :
    pairing (events ++ [.pushed f]) =
      { pending := (events.length, f) :: (pairing events).pending, pairs := pairs events } :=
  pairing_append _ _

theorem pairing_finalized (events : List FrameEvent) (e : Exit Value Payload) :
    pairing (events ++ [.finalized e]) = pairing events :=
  pairing_append _ _

/-- A pop takes the frame that is on top of what is pending, and pairs its position with that of the pop. -/
theorem pairing_popped {events : List FrameEvent} {i : Nat} {f : Frame} {rest : List (Nat × Frame)}
    (h : (pairing events).pending = (i, f) :: rest) (g : Frame) :
    pairing (events ++ [.popped g]) = { pending := rest, pairs := pairs events ++ [(i, events.length)] } := by
  rw [pairing_append]
  simp only [Pairing.step, h, pairs]

/-- A frame that is popped is paired with the one that was pushed last among those pending. -/
theorem mem_pairs_popped {events : List FrameEvent} {i : Nat} {f : Frame} {rest : List (Nat × Frame)}
    (h : (pairing events).pending = (i, f) :: rest) (g : Frame) {k j : Nat} :
    (k, j) ∈ pairs (events ++ [.popped g]) ↔ (k, j) ∈ pairs events ∨ k = i ∧ j = events.length := by
  rw [pairs, pairing_popped h g]
  simp

/-- The events of an interpreter up to a moment at which the frames `fs` are pending: `busy` says whether a finalizer is at
work. -/
structure Stacked (events : List FrameEvent) (fs : List Frame) (busy : Bool) : Prop where
  frames : (pairing events).pending.map (·.2) = fs
  pushed : ∀ i f, (i, f) ∈ (pairing events).pending → events[i]? = some (.pushed f)
  decreasing : ((pairing events).pending.map (·.1)).Pairwise (· > ·)
  /-- Every frame that was pushed is pending or has been popped. -/
  accounted : ∀ i f, events[i]? = some (.pushed f) →
    (i, f) ∈ (pairing events).pending ∨ ∃ j, (i, j) ∈ pairs events
  /-- Every pop has popped some frame. -/
  owned : ∀ j f, events[j]? = some (.popped f) → ∃ i, (i, j) ∈ pairs events
  same : ∀ i j, (i, j) ∈ pairs events → i < j ∧ ∃ f, events[i]? = some (.pushed f) ∧ events[j]? = some (.popped f)
  /-- A frame that has been popped is not pending. -/
  gone : ∀ i j f, (i, j) ∈ pairs events → (i, f) ∉ (pairing events).pending
  once : ∀ i j j', (i, j) ∈ pairs events → (i, j') ∈ pairs events → j = j'
  nested : ∀ i j i' f, (i, j) ∈ pairs events → i < i' → i' < j → events[i']? = some (.pushed f) →
    ∃ j', j' < j ∧ (i', j') ∈ pairs events
  /-- A finalizer that was started has settled before the next event, or is the one at work. -/
  settled : ∀ j n, events[j]? = some (.popped (.finalize n)) →
    (∃ e, events[j + 1]? = some (.finalized e)) ∨ j + 1 = events.length ∧ busy = true

namespace Stacked

variable {events : List FrameEvent} {fs : List Frame} {busy : Bool}

theorem nil : Stacked [] [] false where
  frames := rfl
  pushed _ _ h := nomatch h
  decreasing := .nil
  accounted _ _ h := nomatch h
  owned _ _ h := nomatch h
  same _ _ h := nomatch h
  gone _ _ _ h := nomatch h
  once _ _ _ h := nomatch h
  nested _ _ _ _ h := nomatch h
  settled _ _ h := nomatch h

/-- Positions of events that have happened stay what they are. -/
theorem getElem?_of_lt {i : Nat} {e a : FrameEvent} (h : events[i]? = some a) : (events ++ [e])[i]? = some a := by
  rw [List.getElem?_append_left (List.getElem?_eq_some_iff.mp h).1]
  exact h

/-- An event of a longer list is one of before, or the last one. -/
theorem getElem?_cases {i : Nat} {e a : FrameEvent} (h : (events ++ [e])[i]? = some a) :
    events[i]? = some a ∨ i = events.length ∧ e = a := by
  rcases Nat.lt_trichotomy i events.length with hi | hi | hi
  · rw [List.getElem?_append_left hi] at h
    exact Or.inl h
  · subst hi
    simp at h
    exact Or.inr ⟨rfl, h⟩
  · rw [List.getElem?_eq_none (by simp; omega)] at h
    exact absurd h.symm (Option.some_ne_none a)

/-- An event other than the last one has happened before. -/
theorem getElem?_of_ne {i : Nat} {e a : FrameEvent} (h : (events ++ [e])[i]? = some a) (he : e ≠ a) :
    events[i]? = some a := by
  rcases getElem?_cases h with h | ⟨_, heq⟩
  · exact h
  · exact absurd heq he

theorem lt_of_getElem? {i : Nat} {a : FrameEvent} (h : events[i]? = some a) : i < events.length :=
  (List.getElem?_eq_some_iff.mp h).1

/-- The frame on top was pushed after the others that are pending. -/
theorem top {f : Frame} (h : Stacked events (f :: fs) busy) :
    ∃ i rest, (pairing events).pending = (i, f) :: rest ∧ rest.map (·.2) = fs ∧
      (rest.map (·.1)).Pairwise (· > ·) ∧ ∀ i' g, (i', g) ∈ rest → i' < i := by
  have hf := h.frames
  have hdec := h.decreasing
  cases hpend : (pairing events).pending with
  | nil =>
    rw [hpend] at hf
    nomatch hf
  | cons x rest =>
    rw [hpend, List.map_cons] at hf hdec
    obtain ⟨rfl, hframes⟩ := List.cons.inj hf
    obtain ⟨hlt, hrest⟩ := List.pairwise_cons.mp hdec
    exact ⟨x.1, rest, rfl, hframes, hrest, fun i' g hi => hlt i' (List.mem_map_of_mem (f := (·.1)) hi)⟩

/-- Pushing a frame. -/
theorem push (h : Stacked events fs false) (f : Frame) : Stacked (events ++ [.pushed f]) (f :: fs) false := by
  have hp := pairing_pushed events f
  have hpairs : pairs (events ++ [.pushed f]) = pairs events := by rw [pairs, hp]
  exact
    { frames := by rw [hp, ← h.frames]; rfl
      pushed := fun i g hi => by
        rw [hp] at hi
        rcases List.mem_cons.mp hi with hi | hi
        · obtain ⟨rfl, rfl⟩ := Prod.mk.inj hi
          simp
        · exact getElem?_of_lt (h.pushed i g hi)
      decreasing := by
        rw [hp]
        refine List.pairwise_cons.mpr ⟨fun i hi => ?_, h.decreasing⟩
        obtain ⟨⟨i, g⟩, hmem, rfl⟩ := List.mem_map.mp hi
        exact lt_of_getElem? (h.pushed i g hmem)
      accounted := fun i g hi => by
        rw [hp, hpairs]
        rcases getElem?_cases hi with hi | ⟨rfl, he⟩
        · rcases h.accounted i g hi with hi | hi
          · exact Or.inl (List.mem_cons_of_mem _ hi)
          · exact Or.inr hi
        · obtain rfl := FrameEvent.pushed.inj he
          exact Or.inl (List.mem_cons_self)
      owned := fun j g hj => by
        rw [hpairs]
        exact h.owned j g (getElem?_of_ne hj nofun)
      same := fun i j hij => by
        rw [hpairs] at hij
        obtain ⟨hlt, g, hi, hj⟩ := h.same i j hij
        exact ⟨hlt, g, getElem?_of_lt hi, getElem?_of_lt hj⟩
      gone := fun i j g hij => by
        rw [hpairs] at hij
        rw [hp]
        intro hmem
        rcases List.mem_cons.mp hmem with hmem | hmem
        · obtain ⟨hlt, g', hi, _⟩ := h.same i j hij
          have := lt_of_getElem? hi
          have := (Prod.mk.inj hmem).1
          omega
        · exact h.gone i j g hij hmem
      once := fun i j j' hij hij' => by
        rw [hpairs] at hij hij'
        exact h.once i j j' hij hij'
      nested := fun i j i' g hij hlt hlt' hi' => by
        rw [hpairs] at hij ⊢
        rcases getElem?_cases hi' with hi' | ⟨rfl, _⟩
        · exact h.nested i j i' g hij hlt hlt' hi'
        · obtain ⟨_, g', _, hj⟩ := h.same i j hij
          have := lt_of_getElem? hj
          omega
      settled := fun j n hj => by
        rcases h.settled j n (getElem?_of_ne hj nofun) with ⟨e, he⟩ | ⟨_, hb⟩
        · exact Or.inl ⟨e, getElem?_of_lt he⟩
        · nomatch hb }

/-- Popping the top frame; if it is a finalizer, that finalizer is at work afterwards. -/
theorem pop {f : Frame} (h : Stacked events (f :: fs) false) (hb : ∀ n, f = .finalize n → busy = true) :
    Stacked (events ++ [.popped f]) fs busy := by
  obtain ⟨i₀, rest, hpend, hframes, hdec, htop⟩ := h.top
  have hp := pairing_popped hpend f
  have hmem {i j} : (i, j) ∈ pairs (events ++ [.popped f]) ↔ (i, j) ∈ pairs events ∨ i = i₀ ∧ j = events.length :=
    mem_pairs_popped hpend f
  have hmem₀ : (i₀, f) ∈ (pairing events).pending := by rw [hpend]; exact List.mem_cons_self
  have hsub : ∀ i g, (i, g) ∈ rest → (i, g) ∈ (pairing events).pending := fun i g hi => by
    rw [hpend]
    exact List.mem_cons_of_mem _ hi
  have hpushed₀ := h.pushed i₀ f hmem₀
  exact
    { frames := by rw [hp]; exact hframes
      pushed := fun i g hi => by
        rw [hp] at hi
        exact getElem?_of_lt (h.pushed i g (hsub i g hi))
      decreasing := by rw [hp]; exact hdec
      accounted := fun i g hi => by
        rw [hp]
        rcases h.accounted i g (getElem?_of_ne hi nofun) with hi | ⟨j, hj⟩
        · rw [hpend] at hi
          rcases List.mem_cons.mp hi with hi | hi
          · obtain ⟨rfl, rfl⟩ := Prod.mk.inj hi
            exact Or.inr ⟨events.length, hmem.mpr (Or.inr ⟨rfl, rfl⟩)⟩
          · exact Or.inl hi
        · exact Or.inr ⟨j, hmem.mpr (Or.inl hj)⟩
      owned := fun j g hj => by
        rcases getElem?_cases hj with hj | ⟨rfl, _⟩
        · obtain ⟨i, hi⟩ := h.owned j g hj
          exact ⟨i, hmem.mpr (Or.inl hi)⟩
        · exact ⟨i₀, hmem.mpr (Or.inr ⟨rfl, rfl⟩)⟩
      same := fun i j hij => by
        rcases hmem.mp hij with hij | ⟨rfl, rfl⟩
        · obtain ⟨hlt, g, hi, hj⟩ := h.same i j hij
          exact ⟨hlt, g, getElem?_of_lt hi, getElem?_of_lt hj⟩
        · exact ⟨lt_of_getElem? hpushed₀, f, getElem?_of_lt hpushed₀, by simp⟩
      gone := fun i j g hij hi => by
        rw [hp] at hi
        rcases hmem.mp hij with hij | ⟨rfl, rfl⟩
        · exact h.gone i j g hij (hsub i g hi)
        · exact Nat.lt_irrefl _ (htop i g hi)
      once := fun i j j' hij hij' => by
        rcases hmem.mp hij with hold | ⟨rfl, rfl⟩ <;> rcases hmem.mp hij' with hold' | ⟨hi, hj⟩
        · exact h.once i j j' hold hold'
        · exact absurd hmem₀ (h.gone i₀ j f (hi ▸ hold))
        · exact absurd hmem₀ (h.gone i j' f hold')
        · exact hj.symm
      nested := fun i j i' g hij hlt hlt' hi' => by
        have hi' : events[i']? = some (.pushed g) := getElem?_of_ne hi' nofun
        rcases hmem.mp hij with hij | ⟨rfl, rfl⟩
        · obtain ⟨j', hj', hij'⟩ := h.nested i j i' g hij hlt hlt' hi'
          exact ⟨j', hj', hmem.mpr (Or.inl hij')⟩
        · rcases h.accounted i' g hi' with hpending | ⟨j', hj'⟩
          · rw [hpend] at hpending
            rcases List.mem_cons.mp hpending with hpending | hpending
            · have := (Prod.mk.inj hpending).1
              omega
            · have := htop i' g hpending
              omega
          · obtain ⟨_, g', _, hjj⟩ := h.same i' j' hj'
            exact ⟨j', lt_of_getElem? hjj, hmem.mpr (Or.inl hj')⟩
      settled := fun j n hj => by
        rcases getElem?_cases hj with hj | ⟨rfl, he⟩
        · rcases h.settled j n hj with ⟨e, he⟩ | ⟨_, hbusy⟩
          · exact Or.inl ⟨e, getElem?_of_lt he⟩
          · nomatch hbusy
        · exact Or.inr ⟨by simp, hb n (FrameEvent.popped.inj he)⟩ }

/-- The end of a finalizer. -/
theorem finish (h : Stacked events fs true) (e : Exit Value Payload) : Stacked (events ++ [.finalized e]) fs false := by
  have hp := pairing_finalized events e
  have hpairs : pairs (events ++ [.finalized e]) = pairs events := by rw [pairs, hp, pairs]
  exact
    { frames := by rw [hp]; exact h.frames
      pushed := fun i f hi => getElem?_of_lt (h.pushed i f (by rwa [hp] at hi))
      decreasing := by rw [hp]; exact h.decreasing
      accounted := fun i f hi => by
        rw [hp, hpairs]
        exact h.accounted i f (getElem?_of_ne hi nofun)
      owned := fun j f hj => by
        rw [hpairs]
        exact h.owned j f (getElem?_of_ne hj nofun)
      same := fun i j hij => by
        rw [hpairs] at hij
        obtain ⟨hlt, f, hi, hj⟩ := h.same i j hij
        exact ⟨hlt, f, getElem?_of_lt hi, getElem?_of_lt hj⟩
      gone := fun i j f hij => by
        rw [hpairs] at hij
        rw [hp]
        exact h.gone i j f hij
      once := fun i j j' hij hij' => by
        rw [hpairs] at hij hij'
        exact h.once i j j' hij hij'
      nested := fun i j i' f hij hlt hlt' hi' => by
        rw [hpairs] at hij ⊢
        exact h.nested i j i' f hij hlt hlt' (getElem?_of_ne hi' nofun)
      settled := fun j n hj => by
        rcases h.settled j n (getElem?_of_ne hj nofun) with ⟨e', he'⟩ | ⟨hlast, _⟩
        · exact Or.inl ⟨e', getElem?_of_lt he'⟩
        · refine Or.inl ⟨e, ?_⟩
          rw [hlast]
          simp }

/-- A frame was popped by one pop only. -/
theorem owner_unique (h : Stacked events fs busy) {i i' j : Nat} (hij : (i, j) ∈ pairs events)
    (hij' : (i', j) ∈ pairs events) : i = i' := by
  have no_lt : ∀ {a b : Nat}, (a, j) ∈ pairs events → (b, j) ∈ pairs events → ¬ a < b := by
    intro a b ha hb hab
    obtain ⟨hlt, f, hpushed, _⟩ := h.same b j hb
    obtain ⟨j', hj', hbj'⟩ := h.nested a j b f ha hab hlt hpushed
    rw [h.once b j j' hb hbj'] at hj'
    exact Nat.lt_irrefl _ hj'
  rcases Nat.lt_trichotomy i i' with hlt | heq | hgt
  · exact absurd hlt (no_lt hij hij')
  · exact heq
  · exact absurd hgt (no_lt hij' hij)

end Stacked

/-! ## Runs -/

/-- The process has been reached with these frames pending; a finalizer at work has not been told of as ended. -/
theorem Process.Run.stacked {R : World → World → Prop} {n : Node} {env : Environment} {t : TokenId} {k : Nat}
    {w v : World} {h : History} {p : Process} (run : Run R (.start n env t k) w h p v) :
    Stacked h.frameEvents p.frames p.finalizer?.isSome := by
  suffices H : ∀ {p₀ p : Process} {w v : World} {h : History} {events : List FrameEvent}, Run R p₀ w h p v →
      Stacked events p₀.frames p₀.finalizer?.isSome → Stacked (events ++ h.frameEvents) p.frames p.finalizer?.isSome from
    H run Stacked.nil
  intro p₀ p w v h events run
  induction run generalizing events with
  | done p w =>
    intro hs
    simpa [History.frameEvents] using hs
  | @turn p q w v h hp _ ih =>
    intro hs
    have hstep : Stacked (events ++ p.frameEvents w) (p.turn w).process.frames (p.turn w).process.finalizer?.isSome := by
      have hshift := p.turn_shift w hp
      generalize p.frameEvents w = evs at hshift ⊢
      generalize (p.turn w).process = p' at hshift ⊢
      cases hshift with
      | idle hfin hfin' hf =>
        rw [List.append_nil, hf, hfin']
        rwa [hfin] at hs
      | push f hfin hfin' hf =>
        rw [hf, hfin']
        rw [hfin] at hs
        exact hs.push f
      | pop f hn hfin hfin' hf =>
        rw [hfin, hf] at hs
        exact hs.pop fun n hf => absurd hf (hn n)
      | start n env t k hfin hfin' hf =>
        rw [hfin, hf] at hs
        rw [hfin']
        exact hs.pop fun _ _ => rfl
      | work child _ hfin hfin' hf =>
        rw [List.append_nil, hf, hfin']
        rwa [hfin] at hs
      | finish e hfin hfin' hf =>
        rw [hf, hfin']
        rw [hfin] at hs
        exact hs.finish e
    have := ih hstep
    rwa [List.append_assoc] at this
  | moved _ _ ih => exact ih

/-- What the turns of an interpreter show about its finalizers, up to a moment. -/
structure History.FinalizersOnce (h : History) (p : Process) : Prop where
  /-- The events tell what each turn has done to the frames: a finalizer starts when its frame is popped. -/
  shown : ∀ x ∈ h, FrameShift x.1 x.2 (x.1.frameEvents x.2) (x.1.turn x.2).process
  /-- A frame is popped after it was pushed. -/
  paired : ∀ i j, (i, j) ∈ pairs h.frameEvents →
    i < j ∧ ∃ f, h.frameEvents[i]? = some (.pushed f) ∧ h.frameEvents[j]? = some (.popped f)
  /-- No finalizer starts twice. -/
  atMostOnce : ∀ i j j', (i, j) ∈ pairs h.frameEvents → (i, j') ∈ pairs h.frameEvents → j = j'
  /-- No finalizer starts that was not attached. -/
  attached : ∀ j f, h.frameEvents[j]? = some (.popped f) → ∃! i, (i, j) ∈ pairs h.frameEvents
  /-- When a finalizer starts, those that were attached after it have started before. -/
  lastFirst : ∀ i j i' f, (i, j) ∈ pairs h.frameEvents → i < i' → i' < j → h.frameEvents[i']? = some (.pushed f) →
    ∃ j', j' < j ∧ (i', j') ∈ pairs h.frameEvents
  /-- After the start of a finalizer nothing happens to the frames until it has settled. -/
  settledNext : ∀ j n x, h.frameEvents[j]? = some (.popped (.finalize n)) → h.frameEvents[j + 1]? = some x →
    ∃ e, x = .finalized e
  /-- An interpreter that has settled has started every finalizer that was attached. -/
  exactlyOnce : p.exit? ≠ none → ∀ i f, h.frameEvents[i]? = some (.pushed f) → ∃! j, (i, j) ∈ pairs h.frameEvents
  /-- An interpreter that has settled has waited for its finalizers. -/
  allSettled : p.exit? ≠ none → ∀ j n, h.frameEvents[j]? = some (.popped (.finalize n)) →
    ∃ e, h.frameEvents[j + 1]? = some (.finalized e)

/-- In every run from a start, each finalizer that is pushed is popped at most once, and each that is started has settled before
the next frame is popped. The induction is on the run. -/
theorem Process.Run.finalizersOnce {R : World → World → Prop} {n : Node} {env : Environment} {t : TokenId} {k : Nat}
    {w v : World} {h : History} {p : Process} (run : Run R (.start n env t k) w h p v) : h.FinalizersOnce p := by
  have hs := run.stacked
  have hend : p.exit? ≠ none → p.frames = [] ∧ p.finalizer? = none := by
    intro hp
    cases p with
    | settled e => exact ⟨rfl, rfl⟩
    | _ => exact absurd rfl hp
  exact
    { shown := fun x hx => Process.turn_shift x.1 x.2 (run.unsettled x hx)
      paired := hs.same
      atMostOnce := hs.once
      attached := fun j f hj => by
        obtain ⟨i, hi⟩ := hs.owned j f hj
        exact ⟨i, hi, fun i' hi' => hs.owner_unique hi' hi⟩
      lastFirst := hs.nested
      settledNext := fun j n x hj hx => by
        rcases hs.settled j n hj with ⟨e, he⟩ | ⟨hlast, _⟩
        · rw [he] at hx
          exact ⟨e, (Option.some.inj hx).symm⟩
        · rw [hlast, List.getElem?_eq_none (Nat.le_refl _)] at hx
          nomatch hx
      exactlyOnce := fun hp i f hi => by
        rcases hs.accounted i f hi with hpending | ⟨j, hj⟩
        · have hframes := hs.frames
          rw [(hend hp).1, List.map_eq_nil_iff] at hframes
          rw [hframes] at hpending
          nomatch hpending
        · exact ⟨j, hj, fun j' hj' => hs.once i j' j hj' hj⟩
      allSettled := fun hp j n hj => by
        rcases hs.settled j n hj with he | ⟨_, hbusy⟩
        · exact he
        · rw [(hend hp).2] at hbusy
          nomatch hbusy }

/-- Every finalizer that an interpreter attaches starts at most once, and exactly once by the time the interpreter settles;
the last one attached starts first, and nothing happens to the frames until it has settled. This holds of the interpreter
of a run and of every one inside it, whatever the others do to the world. -/
theorem finalizers_run_once {R : World → World → Prop} {n : Node} {env : Environment} {t : TokenId} {k : Nat}
    {w v : World} {h : History} {p : Process} (run : Process.Run R (.start n env t k) w h p v) :
    h.FinalizersOnce p ∧
      ∀ q, Process.Within q p →
        ∃ (n' : Node) (env' : Environment) (t' : TokenId) (k' : Nat) (w' : World) (h' : History) (v' : World),
          Process.Run World.Anyhow (.start n' env' t' k') w' h' q v' ∧ h'.Sublist h.turns ∧ h'.FinalizersOnce q := by
  refine ⟨run.finalizersOnce, fun q hq => ?_⟩
  obtain ⟨n', env', t', k', w', h', v', run', hs⟩ := run.nested hq
  exact ⟨n', env', t', k', w', h', v', run', hs, run'.finalizersOnce⟩

/-- A group of two branches, one of which interrupts itself, with a finalizer in that branch and one around the group. -/
def guardedGroup : Node :=
  .ensuring (.all [.ensuring .interrupt (.succeed .unit), .succeed .unit]) (.succeed .unit)

/-- The finalizers of the group and of its branch run once, though the branch interrupts itself. -/
theorem finalizers_run_once_guardedGroup :
    ∃ (h : History) (v : World),
      Process.Run World.Anyhow (.start guardedGroup (.plain .null) 0 9) (World.newToken default).2 h
          (.settled .interrupted) v ∧ h.FinalizersOnce (.settled .interrupted) := by
  have hstart : (Process.start guardedGroup (.plain .null) 0 9).exit? = none := rfl
  obtain ⟨h, run⟩ := Process.poll_run 40 (World.newToken default).2 hstart
  exact ⟨h, _, run, (finalizers_run_once run).1⟩

end Interruptible
