import Interruptible.Cause
import Interruptible.Value
import Interruptible.Table

/-!
# Contexts and payloads

A context holds services, at most one of each type; a later service of a type takes the place of an earlier one, and of two
merged contexts the second one wins. An environment is what an effect can read: a plain value, or a context. A payload is
what one effect hands to the next: a value, or what a combinator made of values (a list, an exit, a result, an environment).
-/

namespace Interruptible

/-- The services that an effect may look up, by the full name of their type. -/
structure Context where
  services : Table Value := .empty
deriving Inhabited, Repr, DecidableEq

namespace Context

/-- The context without services. -/
def empty : Context := {}

/-- Adds a service; one of the same type is replaced. -/
def insert (c : Context) (type : String) (service : Value) : Context := { services := c.services.set type service }

/-- The context that holds the given services, inserted in order. -/
def ofList (services : List (String × Value)) : Context := { services := .ofList services }

/-- The service of a type. -/
def get? (c : Context) (type : String) : Option Value := c.services.find? type

/-- Whether there is a service of a type. -/
def contains (c : Context) (type : String) : Bool := (c.get? type).isSome

/-- All services of both contexts; where both have one of a type, that of the second. -/
def merge (c other : Context) : Context := { services := c.services.merge other.services }

/-- The number of services. -/
def size (c : Context) : Nat := c.services.size

/-- Whether there are no services. -/
def isEmpty (c : Context) : Bool := c.size == 0

/-- The names of the service types in order. -/
def typeNames (c : Context) : List String :=
  (c.services.entries.map (·.1)).mergeSort (fun a b => a ≤ b)

/-- The form that lists the types of the services. -/
def debug (c : Context) : String :=
  "Context \x7b services: [" ++ ", ".intercalate (c.typeNames.map Value.quote) ++ "] \x7d"

/-- The last part of a type name such as `library::Clock`. -/
def shortName (type : String) : String := ((type.splitOn "::").getLast?).getD type

/-- A context as an object, with a field for each service under the short name of its type. -/
def toValue (c : Context) : Value :=
  .object (c.services.entries.map fun s => (shortName s.1, s.2))

end Context

/-- What an effect can read: a plain value, or services. -/
inductive Environment where
  | plain (v : Value)
  | services (c : Context)
deriving Inhabited, Repr, DecidableEq

/-- An environment as a value. -/
def Environment.toValue : Environment → Value
  | .plain v => v
  | .services c => c.toValue

/-- What an effect hands to the next one. -/
inductive Payload where
  | value (v : Value)
  | list (items : List Payload)
  | exit (e : Exit Value Payload)
  | result (r : Except Value Payload)
  | environment (e : Environment)
deriving Inhabited

/-- The payload of an effect that is run for its effects only. -/
def Payload.unit : Payload := .value .null

end Interruptible
