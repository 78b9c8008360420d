import Interruptible.Effect.Bracket
import Interruptible.Script.Expr

/-!
# Programs

The language in which scripts write effects. Building a program is an action that evaluates its eager parts and gives a node;
the bodies of callbacks are built when they are called. A program may call named functions, also recursively: a call builds
the body of the function in a scope of its own.
-/

namespace Interruptible.Script

/-- A step of a host future. -/
inductive Step where
  | perform (e : Expr)
  | sleep (ms : Expr)
  | yield (times : Nat)
  | gate (name : String)
  | waitToken (name : String)
  | hook (body : Expr)
  | saveHooks (name : String)
  | logFired (label : Value)
deriving Inhabited

/-- How a host future ends. -/
inductive Finish where
  | result (r : ResultExpr)
  | never
deriving Inhabited

/-- A written environment. -/
inductive EnvExpr where
  | plain (e : Expr)
  | services (entries : List (String × Expr))
deriving Inhabited

mutual
/-- A written effect. -/
inductive Program where
  | succeed (value : Expr)
  | unit
  | lazy (value : Expr)
  | trySucceed (r : ResultExpr)
  | tryCatch (r : ResultExpr) (var : String) (onError : Expr)
  | fail (error : Expr)
  | failCause (cause : Expr)
  | halt (d : Defect)
  | done (exit : Expr)
  | defer (body : Program)
  | interrupt
  | cond (c : Expr) (onTrue onFalse : Program)
  | call (fn : String) (args : List Expr)
  | first (e : Expr) (rest : Program)
  | wrapped (of : Program) (layer : Layer)
  | repeated (n : Expr) (of : Program) (layer : Layer)
  | all (of : List Program)
  | forEachPar (items : Expr) (var : String) (body : Program)
  | bracket (acquire : Program) (var : String) (exitVar : Option String) (use release : Program)
  | asks (var : String) (body : Program)
  | environment
  | service (type : String)
  | serviceWith (type var : String) (body : Program)
  | fromFuture (steps : List Step) (finish : Finish)
  | promise (pre steps : List Step) (finish : Finish)
  | liftFuture (pre steps : List Step) (finish : Finish) (var : String) (onReject : Expr)

/-- What is wrapped around an effect. -/
inductive Layer where
  | map (var : String) (e : Expr)
  | asUnit
  | chain (var : String) (body : Program)
  | matchCause (var : String) (onCause onSuccess : Program)
  | fold (var : String) (onFailure onSuccess : Program)
  | catchAll (var : String) (body : Program)
  | catchAllCause (var : String) (body : Program)
  | mapError (var : String) (e : Expr)
  | result
  | either
  | ensuring (finalizer : Program)
  | provide (env : EnvExpr)
  | provideService (type : String) (value : Expr)
  | provideContext (entries : List (String × Expr))
end

instance : Inhabited Program := ⟨.unit⟩

/-- A named function: its parameters and its body. -/
structure Function where
  params : List String
  body : Program
deriving Inhabited

/-! ## Services and environments -/

/-- Evaluates services in order. -/
def evalServices (scope : Scope) (entries : List (String × Expr)) : Action Context := do
  return .ofList (← Expr.evalFields scope entries)

/-- Evaluates an environment. -/
def EnvExpr.eval (scope : Scope) : EnvExpr → Action Environment
  | .plain e => do return .plain (← e.eval scope)
  | .services entries => do return .services (← evalServices scope entries)

/-! ## Host futures -/

/-- What the last step of a future leads to. -/
def Finish.future (scope : Scope) : Finish → Future
  | .never => .never
  | .result r => (r.eval scope).thenFuture fun
    | .ok v => .settle (.ok (.value v))
    | .error x => .settle (.error x)

/-- Whether the hooks of an operation have fired, logged with a label. -/
def noteFired (op : OperationId) (label : Value) : Action Unit := do
  let fired ← Action.perform (.isFired op)
  Action.perform (.log (.arr [label, .bool fired]))

/-- The future that takes steps and then goes on. -/
def Step.futures (op : OperationId) (scope : Scope) (after : Future) : List Step → Future
  | [] => after
  | .perform e :: rest => (e.eval scope).thenFuture fun _ => futures op scope after rest
  | .sleep ms :: rest => (ms.eval scope).thenFuture fun
    | .int n => .sleep n.toNat (futures op scope after rest)
    | _ => .panic (.text "a sleep takes a number of milliseconds")
  | .yield n :: rest => .yield n (futures op scope after rest)
  | .gate g :: rest => .wait (.gate g) (futures op scope after rest)
  | .waitToken t :: rest => (Action.perform (.findToken t)).thenFuture fun
    | some id => .wait (.token id) (futures op scope after rest)
    | none => futures op scope after rest
  | .hook body :: rest => .register op (body.eval scope).listener (futures op scope after rest)
  | .saveHooks name :: rest =>
    (Action.perform (.keepHooks name op)).thenFuture fun _ => futures op scope after rest
  | .logFired label :: rest => (noteFired op label).thenFuture fun _ => futures op scope after rest

/-- Performs the steps that come before a future. Only steps that need not wait stand here. -/
def Step.performAll (op : OperationId) (scope : Scope) : List Step → Action Unit
  | [] => return ()
  | .perform e :: rest => do
    let _ ← e.eval scope
    performAll op scope rest
  | .hook body :: rest => .register op (body.eval scope).listener (performAll op scope rest)
  | .saveHooks name :: rest => do
    Action.perform (.keepHooks name op)
    performAll op scope rest
  | .logFired label :: rest => do
    noteFired op label
    performAll op scope rest
  | _ :: rest => performAll op scope rest

/-- The factory of a host future: the steps before it, and the future itself. -/
def futureFactory (scope : Scope) (pre steps : List Step) (finish : Finish) (op : OperationId) : Action Future := do
  Step.performAll op scope pre
  return Step.futures op scope (finish.future scope) steps

/-! ## Building -/

/-- A payload as the value that scripts see. -/
def seen (n : Node) : Node := n.map fun p => return .value p.toValue

/-- A cause that an expression has written down. -/
def readCause (v : Value) : Action (Cause Value) :=
  match Cause.ofValue? v with
  | some c => return c
  | none => .panicWith "not a cause"

mutual
/-- Builds a program, given how calls are built. -/
def Program.buildWith (call : String → List Value → Action Node) (scope : Scope) : Program → Action Node
  | .succeed e => do return .value (← e.eval scope)
  | .unit => return Node.unit.map fun _ => return .unit
  | .lazy e => return .lazy do return .value (← e.eval scope)
  | .trySucceed r => return .tryCatch (do return (← r.eval scope).map .value) fun x => return x
  | .tryCatch r var onError =>
    return .tryCatch (do return (← r.eval scope).map .value) fun x => onError.eval ((var, x) :: scope)
  | .fail e => do return .fail (.fail (← e.eval scope))
  | .failCause e => do return .fail (← readCause (← e.eval scope))
  | .halt d => return .die d
  | .done e => do
    match Exit.ofValue? (← e.eval scope) with
    | some exit => return .done (exit.map .value)
    | none => .panicWith "not an exit"
  | .defer body => return .defer (body.buildWith call scope)
  | .interrupt => return .interrupt
  | .cond c a b => do
    let v ← c.eval scope
    if v = .bool true then a.buildWith call scope else b.buildWith call scope
  | .call fn args => do call fn (← Expr.evalItems scope args)
  | .first e rest => do
    let _ ← e.eval scope
    rest.buildWith call scope
  | .wrapped of layer => do
    let n ← of.buildWith call scope
    layer.wrapWith call scope n
  | .repeated n of layer => do
    let inner ← of.buildWith call scope
    match ← n.eval scope with
    | .int k => Action.iterate (fun i => layer.wrapWith call (("i", .int i) :: scope)) k.toNat 0 inner
    | _ => .panicWith "a repetition takes a number"
  | .all of => do return seen (.collect (← Program.buildAll call scope of))
  | .forEachPar items var body => do
    match ← items.eval scope with
    | .arr vs => return seen (.forEachPar vs fun v => body.buildWith call ((var, v) :: scope))
    | _ => .panicWith "a parallel loop takes an array"
  | .bracket acquire var exitVar use release => do
    let n ← acquire.buildWith call scope
    let onUse (p : Payload) : Action Node := use.buildWith call ((var, p.toValue) :: scope)
    let onRelease (p : Payload) (e : Exit Value Payload) : Action Node :=
      match exitVar with
      | none => release.buildWith call ((var, p.toValue) :: scope)
      | some exitVar => release.buildWith call ((exitVar, e.toValue) :: (var, p.toValue) :: scope)
    Node.bracketExit n onUse onRelease
  | .asks var body => return .asks fun env => body.buildWith call ((var, env.toValue) :: scope)
  | .environment => return seen .environment
  | .service type => return seen (.service type)
  | .serviceWith type var body =>
    return .serviceWith type fun s => body.buildWith call ((var, s) :: scope)
  | .fromFuture steps finish => return .promise (futureFactory scope [] steps finish)
  | .promise pre steps finish => return .promise (futureFactory scope pre steps finish)
  | .liftFuture pre steps finish var onReject =>
    return .liftPromise (futureFactory scope pre steps finish) fun x => do
      readCause (← onReject.eval ((var, x) :: scope))

/-- Builds programs from left to right. -/
def Program.buildAll (call : String → List Value → Action Node) (scope : Scope) : List Program → Action (List Node)
  | [] => return []
  | p :: rest => do
    let n ← p.buildWith call scope
    return n :: (← Program.buildAll call scope rest)

/-- Wraps a layer around a node, given how calls are built. -/
def Layer.wrapWith (call : String → List Value → Action Node) (scope : Scope) (n : Node) : Layer → Action Node
  | .map var e => return n.map fun p => do return .value (← e.eval ((var, p.toValue) :: scope))
  | .asUnit => return n.asUnit.map fun _ => return .unit
  | .chain var body => return n.chain fun p => body.buildWith call ((var, p.toValue) :: scope)
  | .matchCause var onCause onSuccess =>
    return n.matchCause (fun c => onCause.buildWith call ((var, c.toValue) :: scope))
      fun p => onSuccess.buildWith call ((var, p.toValue) :: scope)
  | .fold var onFailure onSuccess =>
    return n.fold (fun e => onFailure.buildWith call ((var, e) :: scope))
      fun p => onSuccess.buildWith call ((var, p.toValue) :: scope)
  | .catchAll var body => return n.catchAll fun e => body.buildWith call ((var, e) :: scope)
  | .catchAllCause var body => return n.catchAllCause fun c => body.buildWith call ((var, c.toValue) :: scope)
  | .mapError var e => return n.mapError fun x => e.eval ((var, x) :: scope)
  | .result => return seen n.result
  | .either => return seen n.either
  | .ensuring finalizer => do return n.ensuring (← finalizer.buildWith call scope)
  | .provide env => do return n.give (← env.eval scope)
  | .provideService type value => do return n.provideService type (← value.eval scope)
  | .provideContext entries => do return n.provideContext (← evalServices scope entries)
end

/-- Builds a program with named functions, for calls that nest at most `n` deep. -/
def Program.build (fns : Table Function) : Nat → Scope → Program → Action Node
  | 0, _, _ => .panicWith "calls nest too deeply"
  | n + 1, scope, p =>
    p.buildWith
      (fun fn args =>
        match fns.find? fn with
        | some f => Program.build fns n (f.params.zip args).reverse f.body
        | none => .panicWith "no such function")
      scope

end Interruptible.Script
