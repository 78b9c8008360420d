import Interruptible.Benchmark
import Interruptible.Decimal.Reading

/-!
# Arguments

What the arguments of the command line ask for. Options may stand before the command, if they count for every command, and
after it. An option takes its value from the next argument or from behind an equals sign, and stands at most once on each of
the two levels; of two values on both levels the inner one counts. The value of an option is judged when the next option is
met or the arguments of its level end, so a later fault can be the one that is told.
-/

namespace Interruptible.CommandLine

open Interruptible.Decimal

/-- A page of help. -/
inductive Page where
  | program
  | bench
  | config
  | help
deriving Inhabited, Repr, DecidableEq

/-- Why arguments ask for nothing that can be done. -/
inductive Refusal where
  /-- An argument that nothing is known about. -/
  | unknownArgument
  /-- A word that stands where a command should, and is none. -/
  | unknownCommand
  /-- A value that is no number, or one out of range. -/
  | badValue
  /-- An option without its value. -/
  | missingValue
  /-- A value for an option that takes none. -/
  | unneededValue
  /-- An option that stands twice on one level. -/
  | repeatedOption
  | missingCommand
  /-- There are no arguments at all. -/
  | nothingAsked
  /-- Help is asked for. -/
  | help (page : Page)
deriving Inhabited, Repr, DecidableEq

/-! ## Options -/

/-- The options. -/
inductive Key where
  | config
  | yieldInterval
  | steps
  | branches
  | latency
  | rounds
  | json
  | help
deriving Inhabited, Repr, DecidableEq

/-- How an option is spelled after its two dashes. -/
def Key.spelling : Key → String
  | .config => "config"
  | .yieldInterval => "yield-interval"
  | .steps => "steps"
  | .branches => "branches"
  | .latency => "latency-ms"
  | .rounds => "rounds"
  | .json => "json"
  | .help => "help"

/-- Whether an option takes a value. -/
def Key.takesValue : Key → Bool
  | .json | .help => false
  | _ => true

/-- A number of 32 bits without a sign, written as a number of 64 bits with one. -/
def readInterval? (s : String) : Option Nat := do
  match ← readInt64? s with
  | .ofNat n => if n < 4294967296 then return n else none
  | .negSucc _ => none

/-- Whether an option accepts a value. -/
def Key.accepts (k : Key) (value : String) : Bool :=
  match k with
  | .config | .json | .help => true
  | .yieldInterval => (readInterval? value).isSome
  | .steps | .branches | .latency | .rounds => (readUnsigned? 64 value).isSome

/-- The options of a level: those of the program count everywhere. -/
def Page.keys : Page → List Key
  | .program | .config => [.config, .yieldInterval, .help]
  | .bench => [.config, .yieldInterval, .steps, .branches, .latency, .rounds, .json, .help]
  | .help => []

/-- The option of a spelling. -/
def Page.key? (p : Page) (name : String) : Option Key := p.keys.find? fun k => k.spelling == name

/-! ## Levels -/

/-- What has been read on a level: the options with their values, the one whose value has not been judged, and whether only
words may follow. -/
structure Given where
  options : List (Key × String) := []
  pending : Option (Key × Option String) := none
  onlyWords : Bool := false
deriving Inhabited, Repr, DecidableEq

/-- Judges a value and keeps it. -/
def Given.accept (g : Given) (k : Key) (value : String) : Except Refusal Given :=
  if g.options.any (·.1 == k) then throw .repeatedOption
  else if k.accepts value then return { g with options := g.options ++ [(k, value)] }
  else throw .badValue

/-- Judges the value that has not been judged. -/
def Given.settle (g : Given) : Except Refusal Given :=
  match g.pending with
  | none => return g
  | some (_, none) => throw .missingValue
  | some (k, some value) => { g with pending := none }.accept k value

/-- The option that waits for its value. -/
def Given.awaiting? (g : Given) : Option Key :=
  match g.pending with
  | some (k, none) => some k
  | _ => none

/-- The commands by their names. -/
def commands : List (String × Page) := [("bench", .bench), ("config", .config), ("help", .help)]

/-- What a word means that fits nowhere. -/
def strayWord (level : Page) (onlyWords : Bool) (word : String) : Refusal :=
  if level = .program ∧ ¬(onlyWords ∧ (commands.lookup word).isSome) then .unknownCommand else .unknownArgument

/-- What stands behind two dashes: a name, and a value behind an equals sign. -/
def splitOption? (arg : String) : Option (String × Option String) :=
  match arg.toList with
  | '-' :: '-' :: cs =>
    let (name, rest) := cs.span (· != '=')
    match rest with
    | [] => some (String.ofList name, none)
    | _ :: value => some (String.ofList name, some (String.ofList value))
  | _ => none

/-- The letter behind a single dash. -/
def letterOption? (arg : String) : Option Char :=
  match arg.toList with
  | '-' :: c :: _ => some c
  | _ => none

/-- Takes an option that has been met. -/
def Given.meet (g : Given) (level : Page) (name : String) (value : Option String) : Except Refusal Given := do
  match level.key? name with
  | none => throw .unknownArgument
  | some k =>
    match k.takesValue, value with
    | true, some v => (← g.settle).accept k v
    | true, none => return { ← g.settle with pending := some (k, none) }
    | false, some _ => throw .unneededValue
    | false, none =>
      let g ← g.settle
      if k = .help then throw (.help level) else g.accept k "true"

/-- Reads the arguments of a level up to a command: what was given, and the command with the arguments after it. -/
def readLevel (level : Page) : Given → List String → Except Refusal (Given × Option (Page × List String))
  | g, [] => return (g, none)
  | g, arg :: rest => do
    if g.onlyWords then throw (strayWord level true arg)
    match (if level = .program ∧ g.awaiting?.isNone then commands.lookup arg else none) with
    | some command => return (g, some (command, rest))
    | none =>
      if arg = "--" then readLevel level { g with onlyWords := true } rest
      else
        match splitOption? arg, letterOption? arg, g.awaiting? with
        | some (name, value), _, _ => readLevel level (← g.meet level name value) rest
        | none, some 'h', _ => do
          let _ ← g.settle
          throw (.help level)
        | none, some _, _ => throw .unknownArgument
        | none, none, some k => readLevel level { g with pending := some (k, some arg) } rest
        | none, none, none => throw (strayWord level false arg)

/-- The page of help that is asked for by naming commands. -/
def helpPage : List String → Refusal
  | [] => .help .program
  | [name] =>
    match commands.lookup name with
    | some page => .help page
    | none => .unknownCommand
  | _ => .unknownCommand

/-! ## Invocations -/

/-- A command. -/
inductive Order where
  | bench (p : Benchmark.Params) (json : Bool)
  | config
deriving Inhabited, Repr, DecidableEq

/-- What the arguments ask for. -/
structure Invocation where
  config : Option String := none
  yieldInterval : Option Nat := none
  order : Order
deriving Inhabited, Repr, DecidableEq

/-- The number given for an option, or another one. -/
def numberFor (options : List (Key × String)) (k : Key) (default : Nat) : Nat :=
  ((options.lookup k).bind (readUnsigned? 64)).getD default

/-- The command that options describe. -/
def orderOf (command : Page) (options : List (Key × String)) : Order :=
  let defaults : Benchmark.Params := {}
  match command with
  | .bench =>
    .bench
      { steps := numberFor options .steps defaults.steps
        branches := numberFor options .branches defaults.branches
        latency := numberFor options .latency defaults.latency
        rounds := numberFor options .rounds defaults.rounds }
      ((options.lookup .json).isSome)
  | _ => .config

/-- What arguments ask for. A fault behind the command is told before one in the value of the last option before it. -/
def Invocation.ofArguments (args : List String) : Except Refusal Invocation := do
  match ← readLevel .program {} args with
  | (outer, none) =>
    let outer ← outer.settle
    throw (if outer.options.isEmpty then .nothingAsked else .missingCommand)
  | (_, some (.help, rest)) => throw (helpPage rest)
  | (outer, some (command, rest)) =>
    let (inner, _) ← readLevel command {} rest
    let inner ← inner.settle
    let outer ← outer.settle
    let options := inner.options ++ outer.options
    return {
      config := options.lookup .config
      yieldInterval := (options.lookup .yieldInterval).bind readInterval?
      order := orderOf command inner.options }

end Interruptible.CommandLine
