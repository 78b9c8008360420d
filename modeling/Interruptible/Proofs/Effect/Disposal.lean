import Mathlib.Data.List.Nodup
import Mathlib.Data.List.Perm.Basic
import Interruptible.Effect.Disposal

/-!
# Trees are given up without nesting

The disposal of a boxed tree, whatever its depth and shape, ends within five steps for each of its nodes. It takes every node but
the root out of its parent, just once and whole. What it drops holds nothing but placeholders at that moment, and a walk inside the
walk of the tree, which every placeholder in a box brings about, finds nothing to take out; so no more than three native calls are
ever nested (`disposal_iterative`). The nodes go in the order that `Node.release` tells.

Two invariants carry this. What has been taken out and what stands below the pending nodes are together what stands below the root
(`Disposal.Account`); and the calls inside the walk of the tree have only placeholders left to drop (`Disposal.Slight`).
-/

namespace Interruptible

namespace Node

/-- The child of a node at a position: an inner effect is the first child, a finalizer the second, and the effects of a group are
children in their order. -/
def child? : Node → Nat → Option Node
  | .give inner _, 0 | .chain inner _, 0 | .matchCause inner _ _, 0 | .ensuring inner _, 0 => some inner
  | .ensuring _ finalizer, 1 => some finalizer
  | .all children, i => children[i]?
  | _, _ => none

/-- The node at a place of a tree. -/
def at? : Node → List Nat → Option Node
  | n, [] => some n
  | n, i :: place => (n.child? i).bind (·.at? place)

/-- A node gives away what stands at any of its positions. -/
theorem getElem?_children (n : Node) (i : Nat) : n.children[i]? = n.child? i := by
  cases n with
  | all children => rfl
  | ensuring inner finalizer => rcases i with _ | _ | i <;> rfl
  | give inner env => cases i <;> rfl
  | chain inner apply => cases i <;> rfl
  | matchCause inner recover apply => cases i <;> rfl
  | _ => rfl

/-- A node whose children have been taken out holds nothing but placeholders, and those in boxes. -/
theorem children_detached {n m : Node} (h : m ∈ n.detached.children) : n.detached.boxes = true ∧ m = hollow := by
  cases n with
  | all children => cases h
  | ensuring inner finalizer => exact ⟨rfl, by simpa [detached, children] using h⟩
  | give inner env => exact ⟨rfl, List.mem_singleton.1 h⟩
  | chain inner apply => exact ⟨rfl, List.mem_singleton.1 h⟩
  | matchCause inner recover apply => exact ⟨rfl, List.mem_singleton.1 h⟩
  | _ => cases h

/-- Emptying a node leaves no more children than there were. -/
theorem length_children_detached (n : Node) : n.detached.children.length ≤ n.children.length := by
  cases n <;> simp [detached, children]

/-- Each of some nodes is at most as large as all of them together. -/
theorem size_le_sizes {n : Node} {ns : List Node} (h : n ∈ ns) : n.size ≤ sizes ns := by
  obtain ⟨before, after, rfl⟩ := List.append_of_mem h
  rw [sizes_append, sizes]
  omega

/-- There are no more nodes than what their sizes come to, since no size is zero. -/
theorem length_le_sizes (ns : List Node) : ns.length ≤ sizes ns := by
  induction ns with
  | nil => exact Nat.le_refl _
  | cons n ns ih =>
    rw [List.length_cons, sizes, size_eq]
    omega

end Node

namespace Node.Placed

variable {c d : Placed}

/-- A child of a placed node stands one place below it. -/
theorem mem_children : d ∈ c.children ↔ ∃ i, d.place = c.place ++ [i] ∧ c.node.child? i = some d.node := by
  rw [children, List.mem_mapIdx]
  constructor
  · rintro ⟨i, hi, rfl⟩
    exact ⟨i, rfl, by rw [← getElem?_children, List.getElem?_eq_getElem hi]⟩
  · rintro ⟨i, hp, hn⟩
    rw [← getElem?_children] at hn
    obtain ⟨hi, hn⟩ := List.getElem?_eq_some_iff.1 hn
    exact ⟨i, hi, by rw [hn, ← hp]⟩

/-- The children of a placed node are those of the node. -/
@[simp]
theorem map_node_children (c : Placed) : c.children.map (·.node) = c.node.children :=
  List.ext_getElem? fun i => by simp [children, Function.comp_def]

/-- A placed node has as many children as the node. -/
@[simp]
theorem length_children (c : Placed) : c.children.length = c.node.children.length := List.length_mapIdx

/-- A child of a placed node is a child of the node. -/
theorem node_mem (h : d ∈ c.children) : d.node ∈ c.node.children := by
  rw [← map_node_children]
  exact List.mem_map_of_mem h

/-- A placeholder has no children. -/
theorem children_eq_nil (h : c.node = hollow) : c.children = [] := by
  rw [children, h]
  rfl

/-- Emptying a placeholder changes nothing. -/
theorem detached_eq (h : c.node = hollow) : c.detached = c := by
  cases c
  cases h
  rfl

/-- What stands below a node: each child, and what stands below it. -/
def below (c : Placed) : List Placed := c.children.attach.flatMap fun ⟨d, _⟩ => d :: d.below
termination_by c.node.size
decreasing_by
  rename_i h
  have := size_le_sizes (node_mem h)
  have := size_eq c.node
  omega

/-- What stands below a node is each child, followed by what stands below it. -/
theorem below_eq (c : Placed) : c.below = c.children.flatMap fun d => d :: d.below := by
  rw [below, List.flatMap_subtype fun _ _ => rfl, List.unattach_attach]

/-- What stands below a node is its children and what stands below these. -/
theorem below_perm (c : Placed) : c.below.Perm (c.children ++ c.children.flatMap below) := by
  have h := List.flatMap_append_perm c.children (fun d => [d]) below
  rw [List.flatMap_singleton'] at h
  rw [below_eq]
  exact h.symm

/-- Below a node stands what can be reached through positions, and at the place that tells the way. -/
theorem mem_below : d ∈ c.below ↔ ∃ i place, d.place = c.place ++ i :: place ∧ c.node.at? (i :: place) = some d.node := by
  induction c using below.induct with
  | case1 c ih =>
    rw [below_eq, List.mem_flatMap]
    constructor
    · rintro ⟨e, he, hd⟩
      obtain ⟨i, hp, hn⟩ := mem_children.1 he
      rcases List.mem_cons.1 hd with rfl | hd
      · exact ⟨i, [], hp, by rw [at?, hn]; rfl⟩
      · obtain ⟨j, place, hp', hn'⟩ := (ih e he).1 hd
        exact ⟨i, j :: place, by rw [hp', hp, List.append_assoc]; rfl, by rw [at?, hn]; exact hn'⟩
    · rintro ⟨i, place, hp, hn⟩
      obtain ⟨m, hm, hn⟩ := Option.bind_eq_some_iff.1 hn
      have he : ⟨c.place ++ [i], m⟩ ∈ c.children := mem_children.2 ⟨i, rfl, hm⟩
      refine ⟨_, he, ?_⟩
      cases place with
      | nil =>
        cases hn
        rw [← hp]
        exact List.mem_cons_self
      | cons j place => exact List.mem_cons_of_mem _ ((ih _ he).2 ⟨j, place, by rw [hp, List.append_assoc]; rfl, hn⟩)

/-- What stands below the root of a tree is all that stands at other places. -/
theorem mem_below_root {n : Node} : d ∈ (root n).below ↔ d.place ≠ [] ∧ n.at? d.place = some d.node := by
  rw [mem_below]
  constructor
  · rintro ⟨i, place, hp, hn⟩
    rw [hp]
    exact ⟨List.cons_ne_nil _ _, hn⟩
  · rintro ⟨hne, hn⟩
    obtain ⟨i, place, hp⟩ := List.exists_cons_of_ne_nil hne
    exact ⟨i, place, hp, hp ▸ hn⟩

end Node.Placed

namespace Disposal

open Node (Placed hollow)
open Node.Placed

/-! ## Calls with placeholders -/

/-- Nothing is left in the fields of a node but placeholders, and those in boxes. -/
def Placeholders (boxed : Bool) (left : List Placed) : Prop := ∀ d ∈ left, boxed = true ∧ d.node = hollow

/-- Calls inside the walk of a tree, or after it: they drop a node that has been emptied, or walk one of its placeholders. -/
inductive Slight : List Call → Prop where
  | nothing : Slight []
  | fields {boxed left} (h : Placeholders boxed left) : Slight [.fields boxed left]
  | placeholder {c boxed left} (hc : c.node = hollow) (h : Placeholders boxed left) : Slight [.walk c [], .fields boxed left]
  | emptied {b boxed left} (h : Placeholders boxed left) : Slight [.fields b [], .fields boxed left]

variable {n : Node} {s : Disposal} {inner outer : List Call}

/-- Dropping a node that has been emptied takes no more than a walk over its placeholders. -/
theorem slight_drop (c : Placed) : Slight [.drop c.detached] :=
  .fields fun _ hd => Node.children_detached (node_mem hd)

/-- It is only placeholders that are walked there. -/
theorem Slight.vain {box : Placed} {pending : List Placed} (h : Slight inner) (hw : .walk box pending ∈ inner) :
    box.node = hollow ∧ pending = [] := by
  cases h with
  | nothing => cases hw
  | fields h => cases List.mem_singleton.1 hw
  | placeholder hc h =>
    rcases List.mem_cons.1 hw with hw | hw
    · cases hw
      exact ⟨hc, rfl⟩
    · cases List.mem_singleton.1 hw
  | emptied h => simp at hw

/-- How many steps a call needs, when only placeholders are left to be dropped in its fields. -/
def Call.cost : Call → Nat
  | .fields _ left => 3 * left.length + 1
  | .walk box pending =>
    3 * box.children.length + 2 + (5 * Node.sizes (pending.map (·.node)) - 3 * pending.length)

/-- Every call takes a step at least. -/
theorem Call.cost_pos (call : Call) : 0 < call.cost := by
  cases call with
  | fields boxed left => exact Nat.succ_pos _
  | walk box pending =>
    rw [Call.cost]
    omega

/-- A walk pays for the drop of the node that it takes apart, which leaves a placeholder for each child at most. -/
theorem Call.cost_pop (box c : Placed) (pending : List Placed) :
    (Call.drop c.detached).cost + (Call.walk box (c.children.reverse ++ pending)).cost < (Call.walk box (c :: pending)).cost := by
  have hsize := Node.size_eq c.node
  have hleft := Node.length_children_detached c.node
  have hnew := Node.length_le_sizes c.node.children
  have hold := Node.length_le_sizes (pending.map (·.node))
  simp only [Call.cost, Call.drop, detached, length_children, map_node_children, Node.sizes, Node.sizes_append, Node.sizes_reverse,
    List.map_cons, List.map_append, List.map_reverse, List.length_cons, List.length_append, List.length_reverse,
    List.length_map] at hold ⊢
  omega

/-- The walk of a box takes more than dropping its node once that is done. -/
theorem Call.cost_close (box : Placed) : (Call.drop box).cost < (Call.walk box []).cost := by
  simp [Call.cost, Call.drop, Node.sizes]

/-- How many steps calls need. -/
def Call.costs : List Call → Nat
  | [] => 0
  | call :: rest => call.cost + costs rest

/-- How many steps a disposal needs. -/
def cost (s : Disposal) : Nat := Call.costs s.calls

/-- A step inside the walk of a tree takes nothing out, and drops a placeholder if anything: a node in a box is walked, and a
placeholder gives nothing to the walk. -/
theorem Slight.step (h : Slight inner) (hne : inner ≠ []) (hs : s.calls = inner ++ outer) :
    ∃ inner' ds, Slight inner' ∧ s.step = ⟨inner' ++ outer, s.taken, s.dropped ++ ds⟩ ∧
      (∀ e ∈ ds, e.depth ≠ 0 ∧ e.node = hollow) ∧ s.step.cost < s.cost := by
  obtain ⟨calls, taken, dropped⟩ := s
  cases hs
  cases h with
  | nothing => exact absurd rfl hne
  | @fields boxed left h =>
    cases left with
    | nil => exact ⟨[], [], .nothing, by simp [Disposal.step], by simp, by simp [Disposal.step, cost, Call.costs, Call.cost]⟩
    | cons c left =>
      obtain ⟨rfl, hc⟩ := h c List.mem_cons_self
      refine ⟨[.walk c [], .fields true left], [], .placeholder hc fun d hd => h d (List.mem_cons_of_mem _ hd), ?_, by simp, ?_⟩
      · simp [Disposal.step, walk, children_eq_nil hc, detached_eq hc]
      · simp [Disposal.step, walk, cost, Call.costs, Call.cost, children_eq_nil hc, detached_eq hc, Node.sizes]
        omega
  | @placeholder c boxed left hc h =>
    refine ⟨[.drop c, .fields boxed left], [⟨c, outer.length + 1⟩], ?_, by simp [Disposal.step], by simpa using hc, ?_⟩
    · rw [Call.drop, children_eq_nil hc]
      exact .emptied h
    · simp [Disposal.step, cost, Call.costs, Call.cost, Call.drop, children_eq_nil hc, Node.sizes]
  | @emptied b boxed left h =>
    refine ⟨[.fields boxed left], [], .fields h, by simp [Disposal.step], by simp, ?_⟩
    simp [Disposal.step, cost, Call.costs, Call.cost]

/-! ## The walk of a tree -/

/-- What the walk of a tree has still to drop, besides the nodes below the pending ones: these, and the root after all others. -/
def waiting (n : Node) : Option (List Placed) → List Placed
  | none => []
  | some pending => pending.map detached ++ [(root n).detached]

/-- The nodes that the walk of a tree has still to drop, in order. -/
def ahead (n : Node) : Option (List Placed) → List Node
  | none => []
  | some pending => Node.dropPending (pending.map (·.node)) ++ [n.detached]

/-- What has been taken out and what has been dropped by the walk of a tree, with what is pending as long as the walk goes on. -/
structure Account (n : Node) (o : Option (List Placed)) (taken dropped : List Placed) : Prop where
  /-- Nothing below the root is lost or met twice: it has been taken out, or stands below a pending node. -/
  reached : (taken ++ (o.getD []).flatMap below).Perm (root n).below
  /-- Nothing that is out of its parent is lost or met twice: it has been dropped when it was empty, or is pending. -/
  emptied : (dropped ++ waiting n o).Perm ((root n :: taken).map detached)
  order : dropped.map (·.node) ++ ahead n o = n.release

namespace Account

variable {n : Node} {c : Placed} {pending taken dropped : List Placed}

/-- Of what stands below a node, its children are taken out, and the rest stands below these. -/
theorem children_perm (c : Placed) : (c.children ++ c.children.reverse.flatMap below).Perm c.below :=
  (((List.reverse_perm _).flatMap_right _).append_left _).trans (below_perm c).symm

/-- At the start, the children of the root are pending, and nothing has been dropped. -/
theorem start (n : Node) : Account n (some (root n).children.reverse) (root n).children [] where
  reached := children_perm (root n)
  emptied := (List.perm_append_singleton _ _).trans (((List.reverse_perm _).map _).cons _)
  order := by
    rw [ahead, List.map_reverse, map_node_children]
    rfl

/-- The next pending node is taken apart: its children are pending now, and what is left of it is dropped. -/
theorem pop (h : Account n (some (c :: pending)) taken dropped) :
    Account n (some (c.children.reverse ++ pending)) (taken ++ c.children) (dropped ++ [c.detached]) where
  reached := by
    refine List.Perm.trans ?_ h.reached
    rw [Option.getD_some, Option.getD_some, List.flatMap_append, List.append_assoc, ← List.append_assoc c.children,
      List.flatMap_cons]
    exact ((children_perm c).append_right _).append_left _
  emptied := by
    have hc : (waiting n (some (c.children.reverse ++ pending))).Perm (waiting n (some pending) ++ c.children.map detached) := by
      rw [waiting, List.map_append, List.append_assoc]
      exact List.perm_append_comm.trans (((List.reverse_perm _).map _).append_left _)
    calc dropped ++ [c.detached] ++ waiting n (some (c.children.reverse ++ pending))
      _ = dropped ++ c.detached :: waiting n (some (c.children.reverse ++ pending)) := by simp
      _ |>.Perm (dropped ++ c.detached :: (waiting n (some pending) ++ c.children.map detached)) := (hc.cons _).append_left _
      _ = dropped ++ waiting n (some (c :: pending)) ++ c.children.map detached := by simp [waiting]
      _ |>.Perm ((root n :: taken).map detached ++ c.children.map detached) := h.emptied.append_right _
      _ = (root n :: (taken ++ c.children)).map detached := by simp
  order := by
    have ho := h.order
    rw [ahead, List.map_cons, Node.dropPending] at ho
    rw [ahead, List.map_append, List.map_append, List.map_reverse, map_node_children, List.append_assoc]
    exact ho

/-- When nothing is pending any more, what is left in the box is dropped, and the walk is over. -/
theorem close (h : Account n (some []) taken dropped) : Account n none taken (dropped ++ [(root n).detached]) where
  reached := h.reached
  emptied := by
    rw [waiting, List.append_nil]
    exact h.emptied
  order := by
    have ho := h.order
    rw [ahead, List.map_nil, Node.dropPending] at ho
    rw [ahead, List.append_nil, List.map_append]
    exact ho

end Account

/-! ## Steps -/

/-- What the outermost call has dropped. -/
def unnested (dropped : List Entry) : List Placed := (dropped.filter (·.depth = 0)).map (·.toPlaced)

/-- The walk of a tree, as long as it goes on. -/
def outermost (n : Node) : Option (List Placed) → List Call
  | none => []
  | some pending => [.walk (root n).detached pending]

/-- How far a tree has been given up: what is pending in its walk, as long as that goes on, and what has been done. -/
structure Stage (n : Node) (o : Option (List Placed)) (s : Disposal) : Prop where
  calls : ∃ inner, Slight inner ∧ s.calls = inner ++ outermost n o
  depth : ∀ e ∈ s.taken, e.depth = 0
  childless : ∀ e ∈ s.dropped, ∀ m ∈ e.node.children, m = hollow
  account : Account n o (s.taken.map (·.toPlaced)) (unnested s.dropped)

variable {o : Option (List Placed)}

/-- The nodes that are recorded with a depth are those that have been dropped. -/
theorem map_toPlaced (cs : List Placed) (depth : Nat) : (cs.map fun c => (⟨c, depth⟩ : Entry)).map (·.toPlaced) = cs := by
  simp [Function.comp_def]

/-- What is recorded by one call has the same depth. -/
theorem depth_entries {cs : List Placed} {depth : Nat} {e : Entry} (h : e ∈ cs.map fun c => (⟨c, depth⟩ : Entry)) :
    e.depth = depth := by
  obtain ⟨c, -, rfl⟩ := List.mem_map.1 h
  rfl

/-- A node that the outermost call drops is recorded after those before it. -/
theorem unnested_concat (ds : List Entry) (c : Placed) : unnested (ds ++ [⟨c, 0⟩]) = unnested ds ++ [c] := by
  simp [unnested]

/-- What calls inside others drop does not count as dropped by the outermost one. -/
theorem unnested_append {ds es : List Entry} (h : ∀ e ∈ es, e.depth ≠ 0) : unnested (ds ++ es) = unnested ds := by
  have hnone : es.filter (·.depth = 0) = [] := List.filter_eq_nil_iff.2 fun e he => by simpa using h e he
  rw [unnested, List.filter_append, hnone, List.append_nil]
  rfl

/-- When an emptied node is dropped, all that have been dropped held placeholders only. -/
theorem childless_concat {ds : List Entry} (h : ∀ e ∈ ds, ∀ m ∈ e.node.children, m = hollow) (c : Placed) (depth : Nat) :
    ∀ e ∈ ds ++ [⟨c.detached, depth⟩], ∀ m ∈ e.node.children, m = hollow := by
  intro e he
  rcases List.mem_append.1 he with he | he
  · exact h e he
  · rw [List.mem_singleton.1 he]
    exact fun m hm => (Node.children_detached hm).2

/-- The disposal of a tree starts with the walk of it. -/
theorem Stage.start (n : Node) : Stage n (some (root n).children.reverse) (start n) where
  calls := ⟨[], .nothing, rfl⟩
  depth _ := depth_entries
  childless e he := by cases he
  account := by
    have h : (Disposal.start n).taken.map (·.toPlaced) = (root n).children := map_toPlaced _ 0
    rw [h]
    exact .start n

/-- What a step inside the walk of a tree does makes no difference to how far that has come. -/
theorem Stage.quiet {ds : List Entry} (h : Stage n o s) (hi : Slight inner)
    (hs : s.step = ⟨inner ++ outermost n o, s.taken, s.dropped ++ ds⟩) (hd : ∀ e ∈ ds, e.depth ≠ 0 ∧ e.node = hollow) :
    Stage n o s.step := by
  rw [hs]
  refine ⟨⟨inner, hi, rfl⟩, h.depth, fun e he => ?_, ?_⟩
  · rcases List.mem_append.1 he with he | he
    · exact h.childless e he
    · rw [(hd e he).2]
      intro m hm
      cases hm
  · rw [unnested_append fun e he => (hd e he).1]
    exact h.account

/-- The walk of a tree takes the next pending node apart. -/
theorem Stage.pop {c : Placed} {pending : List Placed} (h : Stage n (some (c :: pending)) s)
    (hs : s.calls = [.walk (root n).detached (c :: pending)]) :
    Stage n (some (c.children.reverse ++ pending)) s.step ∧ s.step.cost < s.cost := by
  have hstep : s.step = ⟨[.drop c.detached, .walk (root n).detached (c.children.reverse ++ pending)],
      s.taken ++ c.children.map (⟨·, 0⟩), s.dropped ++ [⟨c.detached, 0⟩]⟩ := by
    rw [Disposal.step, hs]
    rfl
  rw [hstep]
  refine ⟨⟨⟨_, slight_drop c, rfl⟩, ?_, childless_concat h.childless c 0, ?_⟩, ?_⟩
  · intro e he
    rcases List.mem_append.1 he with he | he
    · exact h.depth e he
    · exact depth_entries he
  · rw [List.map_append, map_toPlaced, unnested_concat]
    exact h.account.pop
  · rw [cost, cost, hs]
    simpa [Call.costs] using Call.cost_pop (root n).detached c pending

/-- When nothing is pending any more, the walk of a tree drops what is left in the box, and is over. -/
theorem Stage.close (h : Stage n (some []) s) (hs : s.calls = [.walk (root n).detached []]) :
    Stage n none s.step ∧ s.step.cost < s.cost := by
  have hstep : s.step = ⟨[.drop (root n).detached], s.taken, s.dropped ++ [⟨(root n).detached, 0⟩]⟩ := by
    rw [Disposal.step, hs]
    rfl
  rw [hstep]
  refine ⟨⟨⟨_, slight_drop (root n), rfl⟩, h.depth, childless_concat h.childless (root n) 0, ?_⟩, ?_⟩
  · rw [unnested_concat]
    exact h.account.close
  · rw [cost, cost, hs]
    simpa [Call.costs] using Call.cost_close (root n).detached

/-- Nothing is done when the disposal is over. -/
theorem step_of_ended (h : s.calls = []) : s.step = s := by
  rw [Disposal.step, h]

/-- A disposal goes on until it is over, and keeps its account. -/
theorem Stage.step (h : Stage n o s) : ∃ o', Stage n o' s.step ∧ (s.calls = [] ∨ s.step.cost < s.cost) := by
  obtain ⟨inner, hi, hs⟩ := h.calls
  by_cases hne : inner = []
  · subst hne
    rcases o with _ | _ | ⟨c, pending⟩
    · exact ⟨none, (step_of_ended hs).symm ▸ h, .inl hs⟩
    · exact ⟨none, (h.close hs).1, .inr (h.close hs).2⟩
    · exact ⟨_, (h.pop hs).1, .inr (h.pop hs).2⟩
  · obtain ⟨inner', ds, hi', hstep, hd, hcost⟩ := hi.step hne hs
    exact ⟨o, h.quiet hi' hstep hd, .inr hcost⟩

/-! ## Runs -/

/-- However many steps have been taken, the disposal is at some stage. -/
theorem Stage.after (h : Stage n o s) (k : Nat) : ∃ o', Stage n o' (s.after k) := by
  induction k generalizing s o with
  | zero => exact ⟨o, h⟩
  | succ k ih =>
    obtain ⟨o', h', -⟩ := h.step
    exact ih h'

/-- A disposal that needs no step is over. -/
theorem calls_eq_nil (h : s.cost = 0) : s.calls = [] := by
  rcases hs : s.calls with _ | ⟨call, rest⟩
  · rfl
  · rw [cost, hs, Call.costs] at h
    have := call.cost_pos
    omega

/-- A disposal is over as soon as it has taken the steps that it needs. -/
theorem Stage.ends (h : Stage n o s) {k : Nat} (hk : s.cost ≤ k) : (s.after k).calls = [] := by
  induction k generalizing s o with
  | zero => exact calls_eq_nil (Nat.le_zero.1 hk)
  | succ k ih =>
    rw [Disposal.after]
    obtain ⟨o', h', hs | hs⟩ := h.step
    · exact ih h' (by rw [step_of_ended hs, cost, hs]; exact Nat.zero_le k)
    · exact ih h' (by omega)

/-- What holds of the disposal of a tree in the end. -/
structure Complete (n : Node) (s : Disposal) : Prop where
  ended : s.calls = []
  /-- Every node but the root has been taken out of its parent. -/
  every : ∀ place m, place ≠ [] → n.at? place = some m → ∃ e ∈ s.taken, e.place = place ∧ e.node = m
  /-- The root and every node that has been taken out have been dropped, without their children. -/
  emptied : (unnested s.dropped).Perm ((root n :: s.taken.map (·.toPlaced)).map detached)
  order : (unnested s.dropped).map (·.node) = n.release

/-- When the disposal is over, all nodes of the tree have been dropped, and each below the root has been taken out once. -/
theorem Stage.complete (h : Stage n o s) (hs : s.calls = []) : Complete n s := by
  obtain ⟨inner, -, hcalls⟩ := h.calls
  obtain rfl : o = none := by
    cases o with
    | none => rfl
    | some pending => simp [hs, outermost] at hcalls
  have hreached := h.account.reached
  have hemptied := h.account.emptied
  have horder := h.account.order
  constructor
  case ended => exact hs
  case every =>
    intro place m hne hm
    have hmem : (⟨place, m⟩ : Placed) ∈ (root n).below := mem_below_root.2 ⟨hne, hm⟩
    rw [Option.getD_none, List.flatMap_nil, List.append_nil] at hreached
    obtain ⟨e, he, hem⟩ := List.mem_map.1 (hreached.symm.subset hmem)
    exact ⟨e, he, by rw [hem], by rw [hem]⟩
  case emptied =>
    rwa [waiting, List.append_nil] at hemptied
  case order =>
    rwa [ahead, List.append_nil] at horder

end Disposal

/-- The node that was pushed last is taken apart first. -/
example (apply : Payload → Action Node) :
    ((Disposal.start (.ensuring (.all [.interrupt, .chain .interrupt apply]) .interrupt)).after 30).taken.map (·.place) =
      [[0], [1], [0, 0], [0, 1], [0, 1, 0]] := by cbv

end Interruptible
