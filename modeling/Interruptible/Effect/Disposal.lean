import Interruptible.Effect.Release

/-!
# Giving up trees, call by call

`Node.release` tells in which order the nodes of a tree go. A disposal tells which native calls do that. The walk of a boxed tree
takes the pending nodes apart and drops what is left of each; to drop a node is to drop what stands in its fields; and what stands
in a field may be a boxed tree, which is walked in its turn, inside the walk that goes on. A disposal keeps an account of the nodes
that are taken out of their parents and of those that are dropped, as they are at that moment.

A callback is not a field of this kind: what it would build is no part of the tree.
-/

namespace Interruptible

/-- A node, and the place where it stands in a tree, or stood before it was taken out: the positions on the way down to it. -/
structure Node.Placed where
  place : List Nat
  node : Node

namespace Node.Placed

/-- A whole tree, at the place where all begins. -/
def root (n : Node) : Placed := ⟨[], n⟩

/-- The children of a node at their places. -/
def children (c : Placed) : List Placed := c.node.children.mapIdx fun i n => ⟨c.place ++ [i], n⟩

/-- What stays at the place of a node when its children have been taken out. -/
def detached (c : Placed) : Placed := { c with node := c.node.detached }

end Node.Placed

/-- Whether the children of a node are boxed, each on its own. Those of a group stand in its list as they are. -/
def Node.boxes : Node → Bool
  | .all _ => false
  | _ => true

namespace Disposal

open Node (Placed)

/-- A native call that is not over. -/
inductive Call where
  /-- Drops what stands in the fields of a node and has not been dropped: a boxed tree by a walk, a node of a group as it is. -/
  | fields (boxed : Bool) (left : List Placed)
  /-- Walks a boxed tree: takes the pending nodes apart, then drops what is left in the box. -/
  | walk (box : Placed) (pending : List Placed)

/-- The call that drops a node by dropping its fields. -/
def Call.drop (c : Placed) : Call := .fields c.node.boxes c.children

/-- An entry of the account: a node, and the number of the calls around the one that makes the entry. -/
structure Entry extends Placed where
  depth : Nat

end Disposal

/-- The native calls that give up a tree, the innermost first, and the account of what they have done. -/
structure Disposal where
  calls : List Disposal.Call
  taken : List Disposal.Entry
  dropped : List Disposal.Entry

namespace Disposal

open Node (Placed)

/-- A walk begins: the children of the boxed tree are taken out and become pending, the last one first. -/
def walk (c : Placed) (s : Disposal) : Disposal where
  calls := .walk c.detached c.children.reverse :: s.calls
  taken := s.taken ++ c.children.map (⟨·, s.calls.length⟩)
  dropped := s.dropped

/-- What the innermost call does next. -/
def step (s : Disposal) : Disposal :=
  match s.calls with
  | [] => s
  | .fields _ [] :: rest => { s with calls := rest }
  | .fields true (c :: left) :: rest => walk c { s with calls := .fields true left :: rest }
  | .fields false (c :: left) :: rest =>
    { s with calls := .drop c :: .fields false left :: rest, dropped := s.dropped ++ [⟨c, rest.length⟩] }
  | .walk box (c :: pending) :: rest =>
    { calls := .drop c.detached :: .walk box (c.children.reverse ++ pending) :: rest
      taken := s.taken ++ c.children.map (⟨·, rest.length⟩)
      dropped := s.dropped ++ [⟨c.detached, rest.length⟩] }
  | .walk box [] :: rest => { s with calls := .drop box :: rest, dropped := s.dropped ++ [⟨box, rest.length⟩] }

/-- A boxed tree is given up, and nothing else is under way. -/
def start (n : Node) : Disposal := walk (.root n) ⟨[], [], []⟩

/-- A disposal some steps later. -/
def after (s : Disposal) : Nat → Disposal
  | 0 => s
  | k + 1 => s.step.after k

end Disposal

end Interruptible
