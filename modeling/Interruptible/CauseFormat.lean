import Interruptible.Context

/-!
# Causes, exits and payloads as values

The written form of causes and exits: `"empty"` and `"interrupt"` for the leaves without content, an object with one field
for everything else. Reading also accepts `smart_then` and `smart_both`, which compose instead of building the bare node,
and defects given by their message and the layers of context around it.
-/

namespace Interruptible

/-- An object with one field. -/
def Value.tagged (tag : String) (v : Value) : Value := .obj [(tag, v)]

/-- A cause as a value: the tree as it is. -/
def Cause.toValue : Cause Value → Value
  | .empty => .str "empty"
  | .interrupt => .str "interrupt"
  | .fail e => .tagged "fail" e
  | .die d => .tagged "die" (.str d.display)
  | .then l r => .tagged "then" (.arr [l.toValue, r.toValue])
  | .both l r => .tagged "both" (.arr [l.toValue, r.toValue])

/-- The text of a string value. -/
def Value.string? : Value → Option String
  | .str s => some s
  | _ => none

/-- A defect from its written form: a message, or an object with a message and layers of context, innermost first. -/
def Defect.ofValue? (v : Value) : Option Defect :=
  match v with
  | .str m => some (.msg m)
  | .obj _ => do
    let m ← (← v.field? "msg").string?
    match v.field? "context" with
    | none => some (.msg m)
    | some (.arr layers) => do
      let texts ← layers.mapM Value.string?
      return texts.foldl Defect.context (.msg m)
    | some _ => none
  | _ => none

/-- A cause from its written form. -/
def Cause.ofValue? : Value → Option (Cause Value)
  | .str "empty" => some .empty
  | .str "interrupt" => some .interrupt
  | .obj [("fail", e)] => some (.fail e)
  | .obj [("die", d)] => (Defect.ofValue? d).map .die
  | .obj [("then", .arr [l, r])] => do return .then (← Cause.ofValue? l) (← Cause.ofValue? r)
  | .obj [("both", .arr [l, r])] => do return .both (← Cause.ofValue? l) (← Cause.ofValue? r)
  | .obj [("smart_then", .arr [l, r])] => do return (← Cause.ofValue? l).andThen (← Cause.ofValue? r)
  | .obj [("smart_both", .arr [l, r])] => do return (← Cause.ofValue? l).beside (← Cause.ofValue? r)
  | _ => none

mutual
/-- A payload as a value. -/
def Payload.toValue : Payload → Value
  | .value v => v
  | .list items => .arr (Payload.toValues items)
  | .exit (.success p) => .tagged "success" p.toValue
  | .exit (.failure c) => .tagged "failure" c.toValue
  | .result (.ok p) => .tagged "ok" p.toValue
  | .result (.error e) => .tagged "err" e
  | .environment e => e.toValue

/-- A list of payloads as values. -/
def Payload.toValues : List Payload → List Value
  | [] => []
  | p :: rest => p.toValue :: Payload.toValues rest
end

/-- An exit as a value. -/
def Exit.toValue (e : Exit Value Payload) : Value := (Payload.exit e).toValue

/-- An exit from its written form: the value or the cause it holds, or one of the short forms for a failed exit. -/
def Exit.ofValue? : Value → Option (Exit Value Value)
  | .obj [("success", v)] => some (.success v)
  | .obj [("failure", c)] => (Cause.ofValue? c).map .failure
  | .str "interrupt" => some .interrupted
  | .obj [("fail", e)] => some (.failure (.fail e))
  | .obj [("die", d)] => (Defect.ofValue? d).map fun d => .failure (.die d)
  | _ => none

/-- A squashed cause as a value: its kind, its text, and the failure it holds in a list of at most one. -/
def Squashed.toValue (s : Squashed Value) : Value :=
  .object
    [("kind", .str s.kind),
     ("display", .str (s.display Value.text)),
     ("is_interrupted", .bool s.isInterrupted),
     ("into_failure", .arr s.failure?.toList)]

end Interruptible
