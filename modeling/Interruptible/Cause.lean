import Interruptible.Defect

/-!
# Causes

Why an effect failed. A cause is a tree: its leaves are typed failures, defects, interruption and nothing at all, and its
inner nodes say whether two causes came one after the other (`then`) or side by side (`both`). No leaf is ever dropped when
causes are composed with `Cause.andThen` and `Cause.beside`, which only leave out operands that hold nothing.
-/

namespace Interruptible

/-- Why an effect failed, with typed failures in `ε`. -/
inductive Cause (ε : Type) where
  | empty
  | fail (error : ε)
  | die (defect : Defect)
  | interrupt
  | then (first next : Cause ε)
  | both (left right : Cause ε)
deriving Inhabited, Repr, BEq

namespace Cause

variable {ε δ : Type}

/-- A cause is empty when every leaf of it is. -/
def isEmpty : Cause ε → Bool
  | .empty => true
  | .then l r | .both l r => l.isEmpty && r.isEmpty
  | _ => false

/-- One cause after another; an empty operand leaves the other one alone. -/
def andThen (first next : Cause ε) : Cause ε :=
  if first.isEmpty then next else if next.isEmpty then first else .then first next

/-- Two causes side by side; an empty operand leaves the other one alone. -/
def beside (left right : Cause ε) : Cause ε :=
  if left.isEmpty then right else if right.isEmpty then left else .both left right

/-- Whether interruption is among the leaves. -/
def isInterrupted : Cause ε → Bool
  | .interrupt => true
  | .then l r | .both l r => l.isInterrupted || r.isInterrupted
  | _ => false

/-- Whether a typed failure is among the leaves. -/
def hasFailure : Cause ε → Bool
  | .fail _ => true
  | .then l r | .both l r => l.hasFailure || r.hasFailure
  | _ => false

/-- The leaves from left to right. -/
def leaves : Cause ε → List (Cause ε)
  | .then l r | .both l r => l.leaves ++ r.leaves
  | leaf => [leaf]

/-- The failure at a leaf. -/
def failure? : Cause ε → Option ε
  | .fail e => some e
  | _ => none

/-- The defect at a leaf. -/
def defect? : Cause ε → Option Defect
  | .die d => some d
  | _ => none

/-- The typed failures from left to right. -/
def failures (c : Cause ε) : List ε := c.leaves.filterMap failure?

/-- The defects from left to right. -/
def defects (c : Cause ε) : List Defect := c.leaves.filterMap defect?

/-- Whether interruption is all there is: no failure and no defect beside it. -/
def isInterruptedOnly (c : Cause ε) : Bool :=
  c.isInterrupted && !c.hasFailure && c.defects.isEmpty

/-- The leftmost typed failure; a cause without one is returned as it is, at the error type of the caller's choice. -/
def failureOr : Cause ε → Except (Cause δ) ε
  | .fail e => .ok e
  | .empty => .error .empty
  | .die d => .error (.die d)
  | .interrupt => .error .interrupt
  | .then l r =>
    match l.failureOr with
    | .ok e => .ok e
    | .error l' =>
      match r.failureOr with
      | .ok e => .ok e
      | .error r' => .error (.then l' r')
  | .both l r =>
    match l.failureOr with
    | .ok e => .ok e
    | .error l' =>
      match r.failureOr with
      | .ok e => .ok e
      | .error r' => .error (.both l' r')

/-- Replaces every typed failure, from left to right, by a computation in a monad; the shape and the other leaves stay. -/
def mapM {m : Type → Type} [Monad m] (f : ε → m δ) : Cause ε → m (Cause δ)
  | .empty => pure .empty
  | .fail e => do return .fail (← f e)
  | .die d => pure (.die d)
  | .interrupt => pure .interrupt
  | .then l r => do
    let l' ← l.mapM f
    let r' ← r.mapM f
    return .then l' r'
  | .both l r => do
    let l' ← l.mapM f
    let r' ← r.mapM f
    return .both l' r'

/-- Replaces every typed failure; the shape and the other leaves stay. -/
def map (f : ε → δ) : Cause ε → Cause δ
  | .empty => .empty
  | .fail e => .fail (f e)
  | .die d => .die d
  | .interrupt => .interrupt
  | .then l r => .then (l.map f) (r.map f)
  | .both l r => .both (l.map f) (r.map f)

end Cause

/-- A cause boiled down to the one thing to report first. -/
inductive Squashed (ε : Type) where
  | failure (error : ε)
  | defect (defect : Defect)
  | interrupted
  | empty
deriving Inhabited, Repr

namespace Squashed

variable {ε : Type}

/-- The word for each kind of report. -/
def kind : Squashed ε → String
  | .failure _ => "failure"
  | .defect _ => "defect"
  | .interrupted => "interrupted"
  | .empty => "empty"

/-- The report as text, given the text of a typed failure. -/
def display (text : ε → String) : Squashed ε → String
  | .failure e => text e
  | .defect d => "defect: " ++ d.display
  | .interrupted => "interrupted"
  | .empty => "failed with an empty cause"

/-- Whether interruption is what gets reported. -/
def isInterrupted : Squashed ε → Bool
  | .interrupted => true
  | _ => false

/-- The typed failure, if that is what gets reported. -/
def failure? : Squashed ε → Option ε
  | .failure e => some e
  | _ => none

end Squashed

/-- Adds the failures and the defects of a cause, from left to right, to those gathered so far. -/
def Cause.gather {ε : Type} : Cause ε → List ε × List Defect → List ε × List Defect
  | .fail e, (failures, defects) => (failures ++ [e], defects)
  | .die d, (failures, defects) => (failures, defects ++ [d])
  | .then l r, found | .both l r, found => r.gather (l.gather found)
  | .empty, found | .interrupt, found => found

/-- A failure comes before a defect, a defect before interruption, and an empty cause has nothing to report. -/
def Cause.squash {ε : Type} (c : Cause ε) : Squashed ε :=
  match c.gather ([], []) with
  | (e :: _, _) => .failure e
  | ([], d :: _) => .defect d
  | ([], []) => if c.isInterrupted then .interrupted else .empty

/-- How an effect ended: with a value, or with a cause. -/
inductive Exit (ε α : Type) where
  | success (value : α)
  | failure (cause : Cause ε)
deriving Inhabited, Repr, BEq

namespace Exit

variable {ε α β : Type}

/-- The exit of a run that was interrupted and had nothing else to report. -/
def interrupted : Exit ε α := .failure .interrupt

/-- Whether the effect ended with a value. -/
def isSuccess : Exit ε α → Bool
  | .success _ => true
  | .failure _ => false

/-- Whether the effect ended with a cause. -/
def isFailure (e : Exit ε α) : Bool := !e.isSuccess

/-- Whether interruption is among the leaves of the cause. -/
def isInterrupted : Exit ε α → Bool
  | .success _ => false
  | .failure c => c.isInterrupted

/-- Whether the effect ended with interruption and nothing else. -/
def isInterruptedOnly : Exit ε α → Bool
  | .success _ => false
  | .failure c => c.isInterruptedOnly

/-- The cause of a failed exit. -/
def cause? : Exit ε α → Option (Cause ε)
  | .success _ => none
  | .failure c => some c

/-- Changes the value of a successful exit. -/
def map (f : α → β) : Exit ε α → Exit ε β
  | .success a => .success (f a)
  | .failure c => .failure c

/-- Takes an exit apart. -/
def fold {γ : Type} (onFailure : Cause ε → γ) (onSuccess : α → γ) : Exit ε α → γ
  | .success a => onSuccess a
  | .failure c => onFailure c

/-- An exit as a result that may be an error. -/
def toExcept : Exit ε α → Except (Cause ε) α
  | .success a => .ok a
  | .failure c => .error c

/-- The word for how a run ended. -/
def describe : Exit ε α → String
  | .success _ => "success"
  | .failure c => if c.isInterrupted then "interrupted" else "failure"

end Exit

end Interruptible
