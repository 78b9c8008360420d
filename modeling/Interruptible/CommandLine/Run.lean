import Interruptible.CommandLine.Help
import Interruptible.Config.Load
import Interruptible.Config.Render
import Interruptible.Config.VariableFile

/-!
# Running commands

What a command prints and how it ends. The configuration is loaded before any command runs, so a faulty one keeps every
command from running. A process ends with code 0 if its command succeeded or help was asked for, with 2 if its arguments ask
for nothing that can be done, and with 1 if its command failed.
-/

namespace Interruptible.CommandLine

/-- Why a command failed. -/
inductive Failure where
  | config (e : Config.Error)
  | benchmark (e : Benchmark.Error)
deriving Inhabited

/-- The wording of a failure. -/
def Failure.message : Failure → String
  | .config e => e.message
  | .benchmark e => e.message

/-- What a command prints. -/
inductive Printed where
  | text (s : String)
  /-- A report as an object. -/
  | report (r : Benchmark.Report)
deriving Inhabited, Repr, DecidableEq

/-- What is printed, as text. -/
def Printed.toText : Printed → String
  | .text s => s
  | .report r => r.json

/-- What a command has printed, and why it failed, if it did. -/
structure Outcome where
  printed : Printed := .text ""
  failure : Option Failure := none
deriving Inhabited

/-- Bounds on the work of a benchmark that no benchmark comes near. -/
def ampleBounds : Benchmark.Bounds := { turns := 1000000000000000000, polls := 1000000000000000000, deadlines := 1000000000000000000 }

/-- Runs the benchmark in a world of its own, and waits until nothing is in flight any more. -/
def runBenchmark (c : Config) (p : Benchmark.Params) : Except Benchmark.Error Benchmark.Report := do
  let (registry, s) := ({} : System).newRegistry
  let (report, s) ← Benchmark.run ampleBounds { interval := max c.yieldInterval 1, registry } p s
  let (t, s) := s.spawn (.drain registry (return ()))
  match s.await ampleBounds.turns ampleBounds.polls t ampleBounds.deadlines with
  | (some _, _) => return report
  | (none, _) => throw .unsettled

/-- Runs a command with a configuration. -/
def Order.run (c : Config) : Order → Outcome
  | .config => { printed := .text c.render }
  | .bench p json =>
    match runBenchmark c p, json with
    | .ok r, true => { printed := .report r }
    | .ok r, false => { printed := .text (Benchmark.Report.heading ++ r.display) }
    | .error e, true => { failure := some (.benchmark e) }
    | .error e, false => { printed := .text Benchmark.Report.heading, failure := some (.benchmark e) }

/-- The request for the configuration of an invocation. -/
def Invocation.request (i : Invocation) : Config.Request := { path := i.config, yieldInterval := i.yieldInterval }

/-- Loads the configuration and runs the command. -/
def Invocation.run (i : Invocation) (sources : Config.Sources) : Outcome :=
  match sources.load i.request with
  | .ok c => i.order.run c
  | .error e => { failure := some (.config e) }

/-! ## Processes -/

/-- How a process ends: its code, what it printed, and what it says about its failure. -/
structure ProcessEnd where
  code : Nat
  printed : Printed := .text ""
  complaint : String := ""
deriving Inhabited

/-- The end of a process after an outcome. -/
def Outcome.processEnd (o : Outcome) : ProcessEnd :=
  match o.failure with
  | none => { code := 0, printed := o.printed }
  | some f => { code := 1, printed := o.printed, complaint := "Error: " ++ f.message ++ "\n" }

/-- What is said about arguments that ask for nothing that can be done. -/
def Refusal.complaint : Refusal → String
  | .nothingAsked => Page.program.text
  | .unknownArgument => "error: unexpected argument found\n"
  | .unknownCommand => "error: unrecognized subcommand\n"
  | .badValue => "error: invalid value\n"
  | .missingValue => "error: a value is required\n"
  | .unneededValue => "error: unexpected value\n"
  | .repeatedOption => "error: the argument cannot be used multiple times\n"
  | .missingCommand => "error: a subcommand is required but was not provided\n"
  | .help _ => ""

/-- The end of a process after its arguments have been refused. -/
def Refusal.processEnd : Refusal → ProcessEnd
  | .help page => { code := 0, printed := .text page.text }
  | r => { code := 2, complaint := r.complaint }

/-- The file of variables that every process reads. -/
def variableFile : String := ".env"

/-- The variables of the environment together with those of a file of variables. -/
def withVariableFile (env : List (String × String)) (file : Option String) : List (String × String) :=
  match file with
  | some text => Config.VariableFile.load env text
  | none => env

/-- A process from its arguments to its end. Variables from the file of variables count if they are not set otherwise. -/
def process (args : List String) (sources : Config.Sources) : ProcessEnd :=
  let sources := { sources with env := withVariableFile sources.env (sources.fileAt variableFile) }
  match Invocation.ofArguments args with
  | .ok i => (i.run sources).processEnd
  | .error r => r.processEnd

end Interruptible.CommandLine
