import Interruptible.Script.Scenario
import Interruptible.Script.Causes
import Interruptible.Script.Contexts
import Interruptible.Config.Toml
import Interruptible.Config.Yaml
import Interruptible.Config.Ini
import Interruptible.Config.Ron
import Interruptible.Config.Files
import Interruptible.Config.Basic
import Interruptible.Config.Load
import Interruptible.Config.Render
import Interruptible.Text.Blank
import Interruptible.Config.VariableFile
import Interruptible.Shared
import Interruptible.Benchmark
import Interruptible.CommandLine.Arguments
import Interruptible.CommandLine.Help
import Interruptible.CommandLine.Run
import Interruptible.Main
import Interruptible.Proofs.World.Code
import Interruptible.Proofs.World.Later
import Interruptible.Proofs.World.Alike
import Interruptible.Proofs.World.Stakes
import Interruptible.Proofs.World.Holding
import Interruptible.Proofs.Machine.Run
import Interruptible.Proofs.Machine.Frames
import Interruptible.Proofs.Machine.Nested
import Interruptible.Proofs.Machine.Finalizers
import Interruptible.Proofs.Machine.FanIn
import Interruptible.Proofs.Machine.Calls
import Interruptible.Proofs.Machine.Evaluation
import Interruptible.Proofs.Machine.Sequential
import Interruptible.Proofs.Machine.Unwinding
import Interruptible.Proofs.Machine.Execution
import Interruptible.Proofs.Machine.Agreement
import Interruptible.Proofs.Effect.Bracket
import Interruptible.Proofs.Effect.Lease
import Interruptible.Proofs.Machine.Ending
import Interruptible.Proofs.Cause.Composition
import Interruptible.Proofs.Machine.FinalizerFailures
import Interruptible.Proofs.Machine.CancelledGroups
import Interruptible.Proofs.Machine.Holdings
import Interruptible.Proofs.Machine.Polls
import Interruptible.Proofs.Machine.Suspension
import Interruptible.Proofs.Task.Polls
import Interruptible.Proofs.Task.Soundness
import Interruptible.Proofs.Task.Cancellation
import Interruptible.Proofs.Machine.FirstRound
import Interruptible.Proofs.Machine.Interruption
import Interruptible.Proofs.Machine.Outcomes
import Interruptible.Proofs.Effect.ReleaseOnce
import Interruptible.Proofs.Effect.StartedRelease
import Interruptible.Proofs.Effect.BracketExit
import Interruptible.Proofs.World.Events
import Interruptible.Proofs.World.Hooks
import Interruptible.Proofs.Machine.Surroundings
import Interruptible.Proofs.Machine.Adapter
import Interruptible.Proofs.Machine.Scopes
import Interruptible.Proofs.World.TokenLaw
import Interruptible.Proofs.Task.Stranding
import Interruptible.Proofs.Task.InFlight
import Interruptible.Proofs.Task.Panics
import Interruptible.Proofs.Machine.Panics
import Interruptible.Proofs.Effect.Plan
import Interruptible.Proofs.Machine.Plans
import Interruptible.Proofs.Machine.PlanTurns
import Interruptible.Proofs.Machine.Schedules
import Interruptible.Proofs.Machine.Yields
import Interruptible.Proofs.Machine.TokenEvents
import Interruptible.Proofs.Machine.Subscriptions
import Interruptible.Proofs.Machine.Listeners
import Interruptible.Proofs.World.Counterparts
import Interruptible.Proofs.World.InStep
import Interruptible.Proofs.World.Tandem
import Interruptible.Proofs.Effect.Counterparts
import Interruptible.Proofs.Machine.Tandem
import Interruptible.Proofs.World.Apart
import Interruptible.Proofs.Machine.Observations
import Interruptible.Proofs.Machine.Isolation
import Interruptible.Proofs.Effect.TypedHandlers
import Interruptible.Proofs.World.Links
import Interruptible.Proofs.World.Unaware
import Interruptible.Proofs.Machine.Unaware
import Interruptible.Proofs.Machine.PromptGroups
import Interruptible.Proofs.Effect.Regroupings
import Interruptible.Proofs.Machine.Regroupings
import Interruptible.Proofs.Machine.RegroupedTurns
import Interruptible.Proofs.Machine.MonadLaws
import Interruptible.Proofs.Cause.Algebra
import Interruptible.Proofs.Machine.Services
import Interruptible.Proofs.Benchmark
import Interruptible.Proofs.Effect.Disposal
import Interruptible.Proofs.World.Closures
import Interruptible.Proofs.World.Deadlocks
