import Interruptible.CauseQuery
import Interruptible.Host.Perform

/-!
# Expressions

The small language in which scripts write values and the bodies of callbacks. Evaluating an expression is an action: it may
log, count, trip tokens, register listeners and panic. Operands are evaluated from left to right, arithmetic is on 64-bit
signed integers, and its overflow is a panic.
-/

namespace Interruptible.Script

/-- The operations of arithmetic. -/
inductive Arith where
  | add
  | sub
  | mul
deriving Inhabited, Repr, DecidableEq

/-- An expression. -/
inductive Expr where
  | lit (v : Value)
  | var (name : String)
  | list (items : List Expr)
  | arith (op : Arith) (a b : Expr)
  | eq (a b : Expr)
  | lt (a b : Expr)
  | cond (c a b : Expr)
  | len (x : Expr)
  | concat (a b : Expr)
  | get (x k : Expr)
  | obj (fields : List (String × Expr))
  | text (x : Expr)
  | seq (items : List Expr)
  | log (e : Expr)
  | bump (counter : String)
  | counter (counter : String)
  | now
  | panic (e : Expr)
  | panicNonText
  | openGate (gate : String)
  | interrupt (token : String)
  | interrupted (token : String)
  | cancel (handle : String)
  | cancelled (handle : String)
  | fired (hooks : String)
  | register (hooks : String) (body : Expr)
  | subscribe (token sub : String) (body : Expr)
  | link (parent child sub : String)
  | dropSub (sub : String)
  | cause (q : CauseQuery) (c : Expr)
deriving Inhabited

/-- The names that are bound, the innermost first. -/
abbrev Scope := List (String × Value)

/-- Keeps an integer that fits into 64 bits with a sign. -/
def fit (n : Int) : Action Value :=
  if -9223372036854775808 ≤ n ∧ n ≤ 9223372036854775807 then return .int n else .panicWith "overflow"

/-- The complaint about an operand of the wrong kind. -/
def wrongOperand : Action Value := .panicWith "operand of the wrong kind"

/-- Arithmetic on integers. -/
def Arith.apply : Arith → Value → Value → Action Value
  | .add, .int a, .int b => fit (a + b)
  | .sub, .int a, .int b => fit (a - b)
  | .mul, .int a, .int b => fit (a * b)
  | _, _, _ => wrongOperand

/-- The length of an array, or the number of characters of a string. -/
def lengthOf : Value → Action Value
  | .arr items => return .int items.length
  | .str s => return .int s.length
  | _ => wrongOperand

/-- Two strings or two arrays in a row. -/
def joinValues : Value → Value → Action Value
  | .str a, .str b => return .str (a ++ b)
  | .arr a, .arr b => return .arr (a ++ b)
  | _, _ => wrongOperand

/-- The field of a name or the item at an index; null if there is none. -/
def select : Value → Value → Value
  | x, .str k => (x.field? k).getD .null
  | .arr items, .int k => if k < 0 then .null else (items[k.toNat]?).getD .null
  | _, _ => .null

/-- Performs something with what a name stands for; nothing if it stands for nothing. -/
def withFound {α : Type} (found : Action (Option α)) (f : α → Action Value) : Action Value := do
  match ← found with
  | some a => f a
  | none => return .null

/-- Keeps a subscription under a name, and then removes the one that was kept there; none means that the listener has run
already. -/
def keep (name : String) : Option Subscription → Action Value
  | none => return .bool false
  | some s => do
    match ← Action.perform (.keepSubscription name s) with
    | some old => Action.perform (.unsubscribe old)
    | none => pure ()
    return .bool true

/-- Registers a listener on a token. -/
def subscribeTo (t : TokenId) (l : Listener) : Action (Option Subscription) := .subscribe t l .pure

/-- Takes a kept subscription and removes its listener. -/
def dropKept (name : String) : Action Value := do
  match ← Action.perform (.takeSubscription name) with
  | some s =>
    Action.perform (.unsubscribe s)
    return .bool true
  | none => return .bool false

/-- The message of a panic: a string as it is, any other value as text. -/
def panicText : Value → String
  | .str s => s
  | v => v.text

mutual
/-- The action that evaluates an expression. -/
def Expr.eval (scope : Scope) : Expr → Action Value
  | .lit v => return v
  | .var name => return (scope.lookup name).getD .null
  | .list items => do return .arr (← Expr.evalItems scope items)
  | .arith op a b => do
    let x ← a.eval scope
    let y ← b.eval scope
    op.apply x y
  | .eq a b => do
    let x ← a.eval scope
    let y ← b.eval scope
    return .bool (x = y)
  | .lt a b => do
    let x ← a.eval scope
    let y ← b.eval scope
    match x, y with
    | .int x, .int y => return .bool (x < y)
    | _, _ => wrongOperand
  | .cond c a b => do
    let v ← c.eval scope
    if v = .bool true then a.eval scope else b.eval scope
  | .len x => do lengthOf (← x.eval scope)
  | .concat a b => do
    let x ← a.eval scope
    let y ← b.eval scope
    joinValues x y
  | .get x k => do
    let v ← x.eval scope
    let i ← k.eval scope
    return select v i
  | .obj fields => do return .object (← Expr.evalFields scope fields)
  | .text x => do return .str (← x.eval scope).text
  | .seq items => do return (← Expr.evalItems scope items).getLastD .null
  | .log e => do
    let v ← e.eval scope
    Action.perform (.log v)
    return v
  | .bump c => do return .int (← Action.perform (.bump c))
  | .counter c => do return .int (← Action.perform (.counter c))
  | .now => do return .int (← Action.perform .now)
  | .panic e => do .panicWith (panicText (← e.eval scope))
  | .panicNonText => .panic .nonText
  | .openGate g => do
    Action.perform (.openGate g)
    return .null
  | .interrupt t =>
    withFound (Action.perform (.findToken t)) fun id => do
      Action.perform (.interrupt id)
      return .null
  | .interrupted t =>
    withFound (Action.perform (.findToken t)) fun id => do return .bool (← Action.perform (.isInterrupted id))
  | .cancel c =>
    withFound (Action.perform (.findCancel c)) fun id => do
      Action.perform (.interrupt id)
      return .null
  | .cancelled c =>
    withFound (Action.perform (.findCancel c)) fun id => do return .bool (← Action.perform (.isInterrupted id))
  | .fired h =>
    withFound (Action.perform (.findHooks h)) fun op => do return .bool (← Action.perform (.isFired op))
  | .register h body =>
    let l := (body.eval scope).listener
    withFound (Action.perform (.findHooks h)) fun op => .register op l (.pure .null)
  | .subscribe t sub body =>
    let l := (body.eval scope).listener
    withFound (Action.perform (.findToken t)) fun id => do keep sub (← subscribeTo id l)
  | .link parent child sub =>
    withFound (Action.perform (.findToken parent)) fun p =>
      withFound (Action.perform (.findToken child)) fun c => do keep sub (← Action.perform (.link p c))
  | .dropSub sub => dropKept sub
  | .cause q c => do
    match Cause.ofValue? (← c.eval scope) with
    | some c => return q.answer c
    | none => wrongOperand

/-- Evaluates expressions from left to right. -/
def Expr.evalItems (scope : Scope) : List Expr → Action (List Value)
  | [] => return []
  | e :: rest => do
    let v ← e.eval scope
    return v :: (← Expr.evalItems scope rest)

/-- Evaluates the fields of an object from left to right. -/
def Expr.evalFields (scope : Scope) : List (String × Expr) → Action (List (String × Value))
  | [] => return []
  | (k, e) :: rest => do
    let v ← e.eval scope
    return (k, v) :: (← Expr.evalFields scope rest)
end

/-- A result that is written down: a value, a rejection, or a choice between results. -/
inductive ResultExpr where
  | ok (e : Expr)
  | err (e : Expr)
  | cond (c : Expr) (a b : ResultExpr)
deriving Inhabited

/-- The action that evaluates a result. -/
def ResultExpr.eval (scope : Scope) : ResultExpr → Action (Except Value Value)
  | .ok e => do return .ok (← e.eval scope)
  | .err e => do return .error (← e.eval scope)
  | .cond c a b => do
    let v ← c.eval scope
    if v = .bool true then a.eval scope else b.eval scope

end Interruptible.Script
