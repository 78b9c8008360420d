import Interruptible.Effect.Node

/-!
# Giving up trees

A tree that is given up without having run is taken apart by means of a list of pending nodes, however deep it is: a node gives
its children to the list before it is dropped, so that what is dropped is never more than one node high.
-/

namespace Interruptible.Node

/-- What stands in the place of a child that has been taken out. -/
def hollow : Node := .succeed .unit

/-- The children of a node. -/
def children : Node → List Node
  | .give inner _ | .chain inner _ | .matchCause inner _ _ => [inner]
  | .ensuring inner finalizer => [inner, finalizer]
  | .all children => children
  | _ => []

/-- A node whose children have been taken out. -/
def detached : Node → Node
  | .give _ env => .give hollow env
  | .chain _ apply => .chain hollow apply
  | .matchCause _ recover apply => .matchCause hollow recover apply
  | .ensuring _ _ => .ensuring hollow hollow
  | .all _ => .all []
  | n => n

mutual
/-- The number of nodes of a tree. What callbacks would build does not count. -/
def size : Node → Nat
  | .give inner _ | .chain inner _ | .matchCause inner _ _ => inner.size + 1
  | .ensuring inner finalizer => inner.size + finalizer.size + 1
  | .all children => sizes children + 1
  | _ => 1

/-- The number of nodes of trees. -/
def sizes : List Node → Nat
  | [] => 0
  | n :: rest => n.size + sizes rest
end

theorem sizes_append (ns ms : List Node) : sizes (ns ++ ms) = sizes ns + sizes ms := by
  induction ns with
  | nil => simp [sizes]
  | cons n ns ih => simp [sizes, ih, Nat.add_assoc]

theorem sizes_reverse (ns : List Node) : sizes ns.reverse = sizes ns := by
  induction ns with
  | nil => rfl
  | cons n ns ih =>
    rw [List.reverse_cons, sizes_append, ih]
    simp [sizes, Nat.add_comm]

/-- A node counts one more than its children. -/
theorem size_eq (n : Node) : n.size = sizes n.children + 1 := by
  cases n <;> simp [size, children, sizes]

/-- Takes pending nodes apart, the last one first: the nodes in the order in which they are dropped, without their children. -/
def dropPending (pending : List Node) : List Node :=
  match pending with
  | [] => []
  | n :: rest => n.detached :: dropPending (n.children.reverse ++ rest)
termination_by sizes pending
decreasing_by
  rw [sizes_append, sizes_reverse]
  have := size_eq n
  simp only [sizes]
  omega

/-- Gives a tree up: its children become pending, and it stays behind without them. -/
def release (n : Node) : List Node := dropPending n.children.reverse ++ [n.detached]

end Interruptible.Node
