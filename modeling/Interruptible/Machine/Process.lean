import Interruptible.Effect.Node
import Interruptible.Host.Perform

/-!
# Processes

One interpreter at work. It keeps the rest of the program as a stack of frames, so that a long chain of effects needs no
deep recursion, and it is always in one of a few states: about to take a node, popping frames with an outcome, running a
finalizer, awaiting a host future, joining a group, or settled. Finalizers and the branches of groups are processes of
their own inside the state of the process that waits for them.
-/

namespace Interruptible

/-- What is to be done once the inner effect has ended. -/
inductive Frame where
  /-- Go on with a success. -/
  | apply (k : Payload → Action Node)
  /-- Go on with a failure or a success. -/
  | fold (recover : Cause Value → Action Node) (k : Payload → Action Node)
  /-- Run a finalizer. -/
  | finalize (finalizer : Node)
  /-- Go back to the environment from before. -/
  | restore (env : Environment)

/-- A stack of frames that knows its height. -/
structure FrameStack where
  frames : List Frame := []
  height : Nat := frames.length
  height_eq : height = frames.length := by rfl

namespace FrameStack

instance : Inhabited FrameStack := ⟨{}⟩

/-- The stack without frames. -/
def empty : FrameStack := {}

/-- Puts a frame on top. -/
def push (s : FrameStack) (f : Frame) : FrameStack where
  frames := f :: s.frames
  height := s.height + 1
  height_eq := by rw [s.height_eq, List.length_cons]

/-- Takes the top frame off. -/
def pop? (s : FrameStack) : Option (Frame × FrameStack) :=
  match h : s.frames with
  | [] => none
  | f :: rest =>
    some (f, { frames := rest, height := s.height - 1, height_eq := by rw [s.height_eq, h]; simp })

end FrameStack

/-- What an interpreter carries along: its pending frames, its environment and token, how many nodes it has taken, and the
failures of finalizers while it unwinds an interrupted run. -/
structure Interpreter where
  frames : FrameStack := .empty
  env : Environment
  token : TokenId
  interval : Nat
  instructions : Nat := 0
  suppressed : Cause Value := .empty
deriving Inhabited

/-- Puts a frame on top of the pending ones. -/
def Interpreter.push (m : Interpreter) (f : Frame) : Interpreter := { m with frames := m.frames.push f }

/-- What the frames are popped with. -/
inductive Outcome where
  | value (p : Payload)
  | failure (c : Cause Value)
  | interruption
deriving Inhabited

/-- A host future that is being awaited, with the subscription that stops it. -/
structure Awaited where
  op : OperationId
  stopper : Subscription
  future : Future
  onReject : Value → Action (Cause Value)

/-- A group that is being joined: its token, the link that trips it, and whether a branch has failed in this round. -/
structure Group where
  token : TokenId
  link : Option Subscription
  failed : Bool := false
deriving Inhabited

mutual
/-- An interpreter in one of its states. -/
inductive Process where
  /-- About to count one instruction for a node. -/
  | next (m : Interpreter) (n : Node)
  /-- The instruction is counted; the token is to be checked before the node is taken. -/
  | counted (m : Interpreter) (n : Node)
  /-- Popping frames. -/
  | popping (m : Interpreter) (o : Outcome)
  /-- Running a finalizer, with the outcome to go on with. -/
  | finalizing (m : Interpreter) (o : Outcome) (child : Process)
  /-- Awaiting a host future. -/
  | awaiting (m : Interpreter) (a : Awaited)
  /-- Joining a group: the branches dealt with in this round, the last one first, and those to come. -/
  | joining (m : Interpreter) (g : Group) (seen rest : List Branch)
  /-- The end. -/
  | settled (e : Exit Value Payload)

/-- A branch of a group. -/
inductive Branch where
  | running (p : Process)
  | finished (e : Exit Value Payload)
end

instance : Inhabited Process := ⟨.settled .interrupted⟩

/-- An interpreter that starts on a node. -/
def Process.start (n : Node) (env : Environment) (token : TokenId) (interval : Nat) : Process :=
  .next { env, token, interval } n

/-- The exit of a process that has settled. -/
def Process.exit? : Process → Option (Exit Value Payload)
  | .settled e => some e
  | _ => none

/-- The exit of a branch that has finished. -/
def Branch.exit? : Branch → Option (Exit Value Payload)
  | .finished e => some e
  | .running _ => none

end Interruptible
