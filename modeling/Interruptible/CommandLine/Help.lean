import Interruptible.CommandLine.Arguments

/-!
# Help

The pages of help: what a command is for, how it is used, and its options.
-/

namespace Interruptible.CommandLine

/-- What an option is for, with its default. -/
def Key.purpose : Key → String
  | .config => "Path to config file (overrides default search)"
  | .yieldInterval => "Nodes between scheduler yields (overrides config file and env vars)"
  | .steps => "Length of the synchronous chain [default: 100000]"
  | .branches => "Branches per concurrent group [default: 100]"
  | .latency => "Milliseconds of simulated latency per branch [default: 10]"
  | .rounds => "Number of concurrent groups to time [default: 10]"
  | .json => "Print the report as JSON"
  | .help => "Print help"

/-- An option as it is written, with the name of its value. -/
def Key.usage (k : Key) : String :=
  let shown := if k = .help then "-h, --" else "    --"
  let value := (k.spelling.map fun c => if c = '-' then '_' else c).toUpper
  shown ++ k.spelling ++ if k.takesValue then " <" ++ value ++ ">" else ""

/-- The options of a page in the order in which they are shown. -/
def Page.shownKeys : Page → List Key
  | .bench => [.config, .steps, .branches, .yieldInterval, .latency, .rounds, .json, .help]
  | page => page.keys

/-- What a page is about. -/
def Page.about : Page → String
  | .program => "Eddy - an interruptible effect runtime"
  | .bench => "Time a long synchronous chain and a latency-bound concurrent group"
  | .config => "Print the effective configuration"
  | .help => "Print this message or the help of the given subcommand(s)"

/-- How the command of a page is used. -/
def Page.usage : Page → String
  | .program => "eddy [OPTIONS] <COMMAND>"
  | .bench => "eddy bench [OPTIONS]"
  | .config => "eddy config [OPTIONS]"
  | .help => "eddy help [COMMAND]..."

/-- The list of commands. -/
def commandList : List String :=
  "Commands:" :: commands.map fun (name, page) => "  " ++ name ++ "".pushn ' ' (8 - name.length) ++ page.about

/-- The list of the options of a page. -/
def Page.optionList (p : Page) : List String :=
  "Options:" :: p.shownKeys.flatMap fun k => ["  " ++ k.usage, "          " ++ k.purpose]

/-- The text of a page. -/
def Page.text (p : Page) : String :=
  let blocks : List (List String) := match p with
    | .program => [commandList, p.optionList]
    | .help => [["Arguments:", "  [COMMAND]...  Print help for the subcommand(s)"]]
    | _ => [p.optionList]
  "\n\n".intercalate (p.about :: ("Usage: " ++ p.usage) :: blocks.map ("\n".intercalate ·)) ++ "\n"

end Interruptible.CommandLine
